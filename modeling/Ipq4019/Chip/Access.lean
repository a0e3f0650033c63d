import Ipq4019.Mdio.Driver

/-!
# The accesses of the driver outside of the rings

Registers of the chip, delays, and MDIO transactions, and what a board makes of them: a register
reads as it stands, and `bus` says what a transaction does.  What else happens to the board is left to
its environment.
-/

namespace Ipq4019.Chip.Access

open Ipq4019.Lib.Interleave Ipq4019.Lib.Interleave.Prog
open Ipq4019.Mdio.Driver

inductive SocOp
  | readl (a : UInt32)
  | writel (v a : UInt32)
  | mdelay (ms : ℕ)
  | bus (o : BusOp)

/-- What each access returns. -/
def SocOp.Res : SocOp → Type
  | .readl _ => UInt32
  | .bus o => o.Res
  | _ => Unit

abbrev socSig : Sig := ⟨SocOp, SocOp.Res⟩

/-- A piece of the driver. -/
abbrev Soc (α : Type) := Prog socSig α

abbrev readl (a : UInt32) : Soc UInt32 := call (S := socSig) (.readl a)
abbrev writel (v a : UInt32) : Soc Unit := call (S := socSig) (.writel v a)
abbrev mdelay (ms : ℕ) : Soc Unit := call (S := socSig) (.mdelay ms)

/-- The MDIO transactions of a program. -/
def onSoc {α : Type} (q : Bus α) : Soc α :=
  q.subst (S := busSig) (T := socSig) fun o => call (S := socSig) (.bus o)

/-- The registers, and what is behind MDIO. -/
structure Board (β : Type) where
  regs : UInt32 → UInt32
  phys : β

variable {β : Type}

/-- **The meaning of an access.** -/
def step (bus : (o : BusOp) → β → o.Res × β) : (o : SocOp) → Board β → o.Res × Board β
  | .readl a, s => (s.regs a, s)
  | .writel v a, s => ((), { s with regs := Function.update s.regs a v })
  | .mdelay _, s => ((), s)
  | .bus o, s => ((bus o s.phys).1, { s with phys := (bus o s.phys).2 })

/-- The driver on a board to which `env` happens. -/
def board (bus : (o : BusOp) → β → o.Res × β) (env : Board β → Board β → Prop) :
    Machine socSig (Board β) where
  step := step bus
  env := env

end Ipq4019.Chip.Access
