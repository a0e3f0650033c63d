import Ipq4019.Lib.Answers
import Ipq4019.Netboot.CmdLine

/-!
# The network boot: the protocol

What a network boot is: a protocol over what was done and answered so far (`Session`).  A lease is
asked for when there is none, and its release once, before the payload halts; the kernel is started
only if it was loaded whole and the lease is gone, and with the command line that the answers stand
for (`commandLine`), which ends in the server's address.

`netboot_entry` follows it, whatever the answers (`follows_netbootEntry`).  It leaves the buffer
exactly if the file of the command line is empty (`bounds_iff`), and starts the kernel exactly if the
boot file was loaded, the lease released, and there is room for the server's address (`booted_iff`).
-/

namespace Ipq4019.Netboot.Protocol

open Ipq4019.Lib.Interleave Ipq4019.Lib.Interleave.Prog Ipq4019.Lib.CString Ipq4019.Lib.Answers
open Ipq4019.Netboot.Driver Ipq4019.Netboot.CmdLine

/-! ### The session -/

/-- What `netboot` is called with. -/
structure Request where
  tftpIp : Option IpAddr
  bootfile : Option (List UInt8)
  argsfile : Option (List UInt8)
  args : Option Args
  buffer : List UInt8

/-- A transfer that was made. -/
structure Loaded where
  failed : Bool
  data : List UInt8
  deriving DecidableEq

structure Session where
  request : Option Request
  linked : Bool
  up : Bool
  card : Option (List UInt8)
  mac : Option (List UInt8)
  lease : Option Lease
  kernel : Option Loaded
  argsLoaded : Option Loaded
  released : Option Bool
  booted : Bool
  halted : Bool

def start : Session := ⟨none, false, false, none, none, none, none, none, none, false, false⟩

def next : (o : NetOp) → o.Res → Session → Session
  | .netbootParamsRead _, p, s => { s with
      request := some ⟨p.tftpIp, p.bootfile, p.argsfile, some .cmdLine, overwrite initCmdLine p.stored⟩ }
  | .netWaitForLink, _, s => { s with linked := true }
  | .uipInit, _, s => { s with up := true }
  | .netGetMac, m, s => { s with card := m }
  | .uipSetethaddr mac, _, s => { s with mac := some mac }
  | .dhcpRequest, l, s => { s with lease := l }
  | .dhcpRelease _, failed, s => { s with released := some failed }
  | .tftpRead .payload _ _ _, t, s => { s with kernel := some ⟨t.failed, t.data⟩ }
  | .tftpRead .cmdLine _ _ _, t, s => { s with argsLoaded := some ⟨t.failed, t.data⟩ }
  | .boot _, _, s => { s with booted := true }
  | .halt, _, s => { s with halted := true }
  | _, _, s => s

/-- The server that the files come from. -/
def Request.server (q : Request) (l : Lease) : IpAddr := q.tftpIp.getD l.nextIp

/-- **The command line that the answers stand for.**  A transfer that failed has left its bytes over
the start of the buffer. -/
def commandLine (signed : Bool) (q : Request) : Option Loaded → List UInt8
  | none => text (useArgs q.buffer q.args)
  | some t =>
    if t.failed then text (useArgs (overwrite q.buffer t.data) q.args) else argLine signed t.data

/-- There is a lease, and it was not released: a release that failed leaves it. -/
def Session.Holds (s : Session) (l : Lease) : Prop := s.lease = some l ∧ s.released ≠ some false

/-- There is a lease, and its release was not asked for. -/
def Session.Keeps (s : Session) (l : Lease) : Prop := s.lease = some l ∧ s.released = none

/-- **What is allowed.** -/
def Allowed (c : Config) : NetOp → Session → Prop
  | .netWaitForLink, s => s.lease = none
  | .uipInit, s => s.linked = true
  | .netGetMac, s => s.up = true ∧ s.lease = none
  | .uipSetethaddr mac, s => s.card = some mac ∧ s.lease = none
  | .dhcpRequest, s => s.up = true ∧ s.mac.isSome ∧ s.mac = s.card ∧ s.lease = none
  | .tftpRead .payload ip file max, s => ∃ l q, s.Keeps l ∧ s.request = some q ∧ s.kernel = none ∧
      ip = q.server l ∧ file = q.bootfile.getD l.dhcpBootfile ∧ max = c.maxPayloadSize
  | .tftpRead .cmdLine ip file max, s => ∃ l q k, s.Keeps l ∧ s.request = some q ∧
      s.kernel = some ⟨false, k⟩ ∧ s.argsLoaded = none ∧ ip = q.server l ∧ q.argsfile = some file ∧
        max < sizeofCmdLine
  | .dhcpRelease ip, s => ∃ l, s.Keeps l ∧ ip = l.serverIp
  | .boot b, s => ∃ l q k, s.lease = some l ∧ s.released = some false ∧ s.request = some q ∧
      s.kernel = some ⟨false, k⟩ ∧ b.length = sizeofCmdLine ∧ (0 : UInt8) ∈ b ∧
        text b = commandLine c.signed q s.argsLoaded ++ serverArg (q.server l)
  | .halt, s => ∀ l, s.Holds l → s.released = some true
  | _, s => s.request = none

/-- After the kernel was started there is only a halt, and after a halt nothing. -/
def protocol (c : Config) : Protocol netSig Session where
  next := next
  allowed o s := s.halted = false ∧ (s.booted = true → o = .halt) ∧ Allowed c o s

/-! ### How it ends -/

/-- The file of the command line was loaded, and is empty. -/
def EmptyArgs (s : Session) : Prop := s.argsLoaded = some ⟨false, []⟩

/-- There is room for the server's address. -/
def Room (c : Config) (s : Session) : Prop := ∃ q, s.request = some q ∧
  (commandLine c.signed q s.argsLoaded).length + sizeofDefTftpCmdline - 1 < sizeofCmdLine

/-- The kernel can be started. -/
def Bootable (c : Config) (s : Session) : Prop :=
  (∃ k, s.kernel = some ⟨false, k⟩) ∧ s.released = some false ∧ Room c s

structure Post (c : Config) (e : Ended) (s : Session) : Prop where
  bounds : e = .outOfBounds ↔ EmptyArgs s
  booted : s.booted = true ↔ ¬EmptyArgs s ∧ Bootable c s
  returned : e = .returned → s.halted = false ∧ s.released = some false
  holds : ∀ l, s.Holds l → e = .outOfBounds ∨ s.released = some true

section Parts

variable {c : Config} {s : Session} {q : Request} {l : Lease} {b : List UInt8}

theorem follows_halt (hh : s.halted = false) (hb : s.booted = false)
    (hl : ∀ l, s.Holds l → s.released = some true)
    (he : ¬EmptyArgs s) (hno : ¬Bootable c s) : Follows (protocol c) halt (Post c) s :=
  ⟨⟨hh, fun _ => rfl, hl⟩, fun _ =>
    { bounds := ⟨by simp, fun h => absurd h he⟩
      booted := ⟨fun h => absurd (hb.symm.trans h) (by simp), fun h => absurd h.2 hno⟩
      returned := by simp
      holds := fun l h => Or.inr (hl l h) }⟩

/-- The files may be asked for. -/
structure Leased (q : Request) (l : Lease) (s : Session) : Prop where
  request : s.request = some q
  lease : s.lease = some l
  released : s.released = none
  booted : s.booted = false
  halted : s.halted = false

theorem Leased.keeps (h : Leased q l s) : s.Keeps l := ⟨h.lease, h.released⟩

/-- The kernel is loaded, and the buffer holds the command line. -/
structure Complete (c : Config) (q : Request) (b : List UInt8) (s : Session) : Prop where
  kernel : ∃ k, s.kernel = some ⟨false, k⟩
  nonempty : ¬EmptyArgs s
  terminated : Terminated b
  line : text b = commandLine c.signed q s.argsLoaded

theorem follows_bootKernel (hq : s.request = some q) (hl : s.lease = some l)
    (hr : s.released = some false) (hb : s.booted = false) (hh : s.halted = false)
    (h : Complete c q b s) : Follows (protocol c) (bootKernel (q.server l) b) (Post c) s := by
  have hholds : ∀ l, ¬s.Holds l := fun l hl => hl.2 hr
  obtain ⟨k, hk⟩ := h.kernel
  unfold bootKernel
  rw [strlen_eq h.terminated.zero_mem, Option.elim_some, h.line]
  by_cases hroom : sizeofCmdLine ≤
      (commandLine c.signed q s.argsLoaded).length + sizeofDefTftpCmdline - 1
  · rw [if_pos hroom]
    refine ⟨⟨by simp, fun he => absurd he h.nonempty⟩, ⟨fun hbt => ?_, ?_⟩, fun _ => ⟨hh, hr⟩,
      fun l hl => absurd hl (hholds l)⟩
    · rw [hb] at hbt
      exact absurd hbt (by simp)
    · rintro ⟨-, -, -, q', hq', hlt⟩
      obtain rfl := Option.some.inj (hq.symm.trans hq')
      omega
  · rw [if_neg hroom]
    have hlt : (text b).length + sizeofDefTftpCmdline - 1 < sizeofCmdLine := by
      rw [h.line]
      omega
    obtain ⟨b', hput, hlen, hzero, htext⟩ := put_serverArg h.terminated (q.server l) hlt
    rw [h.line] at hput htext
    rw [hput, Option.elim_some]
    refine ⟨⟨hh, fun hbt => absurd (hb.symm.trans hbt) (by simp), l, q, k, hl, hr, hq, hk, hlen, hzero,
      htext⟩, fun _ => ⟨⟨by simp, fun he => absurd he h.nonempty⟩, ⟨fun _ => ?_, fun _ => rfl⟩,
        fun _ => ⟨hh, hr⟩, fun l hl => absurd hl (hholds l)⟩⟩
    refine ⟨h.nonempty, h.kernel, hr, q, hq, ?_⟩
    change (commandLine c.signed q s.argsLoaded).length + _ - 1 < _
    omega

theorem follows_release (hs : Leased q l s) (h : Complete c q b s) :
    Follows (protocol c) (release l (q.server l) b) (Post c) s := by
  refine ⟨⟨hs.halted, fun hbt => absurd (hs.booted.symm.trans hbt) (by simp), l, hs.keeps, rfl⟩,
    fun (failed : Bool) => ?_⟩
  cases failed with
  | true =>
    refine follows_halt hs.halted hs.booted (fun _ _ => rfl) h.nonempty fun hno => ?_
    exact absurd hno.2.1 (by decide : some true ≠ some false)
  | false =>
    exact follows_bootKernel hs.request hs.lease rfl hs.booted hs.halted
      ⟨h.kernel, h.nonempty, h.terminated, h.line⟩

/-- The command line: read before the buffer, or complete. -/
theorem follows_loadArgs {k : List UInt8} (hs : Leased q l s) (hk : s.kernel = some ⟨false, k⟩)
    (ha : s.argsLoaded = none) (ht : Terminated q.buffer) :
    Follows (protocol c) (loadArgs c (q.server l) q.argsfile q.args q.buffer)
      (fun r t => Leased q l t ∧ t.kernel = some ⟨false, k⟩ ∧
        r.elim (EmptyArgs t) fun b => Complete c q b t) s := by
  have hline : ∀ b, b = useArgs q.buffer q.args → Complete c q b s := by
    rintro _ rfl
    refine ⟨⟨k, hk⟩, ?_, ht.useArgs q.args, ?_⟩
    · unfold EmptyArgs
      rw [ha]
      simp
    · rw [ha]
      rfl
  unfold loadArgs
  cases hfile : q.argsfile with
  | none => exact ⟨hs, hk, hline _ rfl⟩
  | some file =>
    refine ⟨⟨hs.halted, fun hbt => absurd (hs.booted.symm.trans hbt) (by simp), l, q, k, hs.keeps,
      hs.request, hk, ha, rfl, hfile, by decide⟩, fun (t : Transfer (sizeofCmdLine - 1)) => ?_⟩
    obtain ⟨failed, data, hfits⟩ := t
    have hdata : data.length < sizeofCmdLine := hfits.trans_lt (by decide)
    refine ⟨⟨hs.request, hs.lease, hs.released, hs.booted, hs.halted⟩, hk, ?_⟩
    cases failed with
    | true =>
      refine ⟨⟨k, hk⟩, ?_, (ht.overwrite hdata).useArgs q.args, rfl⟩
      change some (Loaded.mk true data) ≠ some ⟨false, []⟩
      simp
    | false =>
      change Option.elim (cleanLine c.signed (overwrite q.buffer data) data.length) _ _
      have hnone : cleanLine c.signed (overwrite q.buffer data) data.length = none ↔ data = [] :=
        cleanLine_none ht hdata
      cases hclean : cleanLine c.signed (overwrite q.buffer data) data.length with
      | none =>
        obtain rfl := hnone.mp hclean
        rfl
      | some b =>
        obtain ⟨hterm, htext⟩ := cleanLine_some ht hdata hclean
        refine ⟨⟨k, hk⟩, ?_, hterm, htext⟩
        change some (Loaded.mk false data) ≠ some ⟨false, []⟩
        intro he
        have hempty : data = [] := congrArg Loaded.data (Option.some.inj he)
        rw [hnone.mpr hempty] at hclean
        exact absurd hclean (by simp)

theorem follows_download (hs : Leased q l s) (hk : s.kernel = none) (ha : s.argsLoaded = none)
    (ht : Terminated q.buffer) : Follows (protocol c)
      (download c q.tftpIp q.bootfile q.argsfile q.args q.buffer l) (Post c) s := by
  have hbooted : ∀ {o : NetOp}, s.booted = true → o = .halt := fun hbt =>
    absurd (hs.booted.symm.trans hbt) (by simp)
  refine ⟨⟨hs.halted, hbooted, l, q, hs.keeps, hs.request, hk, rfl, rfl, rfl⟩,
    fun (t : Transfer c.maxPayloadSize) => ?_⟩
  have hnext : Leased q l (next (.tftpRead .payload (q.server l) (q.bootfile.getD l.dhcpBootfile)
      c.maxPayloadSize) t s) := ⟨hs.request, hs.lease, hs.released, hs.booted, hs.halted⟩
  obtain ⟨failed, data, hfits⟩ := t
  cases failed with
  | true =>
    refine ⟨⟨hs.halted, hbooted, l, hnext.keeps, rfl⟩, fun (failed : Bool) => ?_⟩
    refine follows_halt hs.halted hs.booted (fun l' hl' => ?_) (fun he => ?_) fun hno => ?_
    · cases failed with
      | true => rfl
      | false => exact absurd rfl hl'.2
    · exact absurd (ha.symm.trans he) (by simp)
    · obtain ⟨⟨k, hk⟩, -⟩ := hno
      have hfail : true = false := congrArg Loaded.failed (Option.some.inj hk)
      exact absurd hfail (by decide)
  | false =>
    refine (follows_loadArgs hnext rfl ha ht).bind fun r t ⟨hleased, hkernel, hline⟩ => ?_
    cases r with
    | some b => exact follows_release hleased hline
    | none =>
      have hfree : ¬t.booted = true := by simp [hleased.booted]
      exact ⟨⟨fun _ => hline, fun _ => rfl⟩, ⟨fun hbt => absurd hbt hfree, fun h => absurd hline h.1⟩,
        by simp, fun _ _ => Or.inl rfl⟩

/-- There is no lease yet. -/
structure Asking (q : Request) (s : Session) : Prop where
  request : s.request = some q
  up : s.up = true
  lease : s.lease = none
  kernel : s.kernel = none
  argsLoaded : s.argsLoaded = none
  released : s.released = none
  booted : s.booted = false
  halted : s.halted = false

theorem Asking.not_emptyArgs (hs : Asking q s) : ¬EmptyArgs s := fun he =>
  absurd (hs.argsLoaded.symm.trans he) (by simp)

theorem Asking.not_bootable (hs : Asking q s) : ¬Bootable c s := fun ⟨⟨_, hk⟩, _⟩ =>
  absurd (hs.kernel.symm.trans hk) (by simp)

theorem Asking.not_holds (hs : Asking q s) : ∀ l, ¬s.Holds l := fun _ hl =>
  absurd (hs.lease.symm.trans hl.1) (by simp)

theorem follows_dhcpLoop (ht : Terminated q.buffer) : ∀ (n : ℕ) {s : Session}, Asking q s →
    Follows (protocol c) (dhcpLoop (download c q.tftpIp q.bootfile q.argsfile q.args q.buffer) n)
      (Post c) s
  | 0, s, hs => by
    have hfree : ¬s.booted = true := by simp [hs.booted]
    exact ⟨⟨by simp, fun he => absurd he hs.not_emptyArgs⟩, ⟨fun hbt => absurd hbt hfree,
      fun h => absurd h.2 hs.not_bootable⟩, by simp, fun l hl => absurd hl (hs.not_holds l)⟩
  | n + 1, s, hs => by
    have hbooted : ∀ {o : NetOp}, s.booted = true → o = .halt := fun hbt =>
      absurd (hs.booted.symm.trans hbt) (by simp)
    refine ⟨⟨hs.halted, hbooted, hs.up, hs.lease⟩, fun (mac : Option (List UInt8)) => ?_⟩
    cases mac with
    | none =>
      exact follows_halt hs.halted hs.booted (fun l hl => absurd hl (hs.not_holds l))
        hs.not_emptyArgs hs.not_bootable
    | some mac =>
      refine ⟨⟨hs.halted, hbooted, rfl, hs.lease⟩, fun _ => ?_⟩
      refine ⟨⟨hs.halted, hbooted, hs.up, rfl, rfl, hs.lease⟩, fun (lease : Option Lease) => ?_⟩
      cases lease with
      | none =>
        exact follows_dhcpLoop ht n
          ⟨hs.request, hs.up, rfl, hs.kernel, hs.argsLoaded, hs.released, hs.booted, hs.halted⟩
      | some l =>
        exact follows_download ⟨hs.request, rfl, hs.released, hs.booted, hs.halted⟩ hs.kernel
          hs.argsLoaded ht

/-- **`netboot`**, with a buffer that ends in 0. -/
theorem follows_netboot (n : ℕ) (ht : Terminated q.buffer)
    (hs : s = { start with request := some q }) :
    Follows (protocol c) (netboot c n q.tftpIp q.bootfile q.argsfile q.args q.buffer) (Post c) s := by
  rw [hs]
  refine ⟨⟨rfl, nofun, rfl⟩, fun _ => ⟨⟨rfl, nofun, rfl⟩, fun _ => ?_⟩⟩
  exact follows_dhcpLoop ht n ⟨rfl, rfl, rfl, rfl, rfl, rfl, rfl, rfl⟩

end Parts

/-! ### The whole boot -/

section Entry

variable {c : Config} {n : ℕ}

/-- A payload that does not return. -/
def Final (c : Config) (e : Ended) (s : Session) : Prop := Post c e s ∧ e ≠ .returned

theorem final_start : Final c .halted { start with halted := true } := by
  refine ⟨⟨⟨by simp, fun he => ?_⟩, ⟨by simp [start], fun h => ?_⟩, by simp, fun l hl => ?_⟩, by simp⟩
  · exact absurd he (by simp [EmptyArgs, start])
  · exact absurd h.2.2.1 (by simp [start])
  · exact absurd hl.1 (by simp [start])

theorem follows_enableGraphics {next : Boot} (h : Follows (protocol c) next (Final c) start) :
    Follows (protocol c) (enableGraphics c next) (Final c) start := by
  unfold enableGraphics
  split
  · refine ⟨⟨rfl, nofun, rfl⟩, fun (opromLoaded : Bool) => ?_⟩
    cases opromLoaded with
    | true => exact h
    | false =>
      refine ⟨⟨rfl, nofun, rfl⟩, fun _ => ⟨⟨rfl, nofun, rfl⟩, fun (failed : Bool) => ?_⟩⟩
      cases failed with
      | true => exact ⟨⟨rfl, nofun, fun l hl => nomatch hl.1⟩, fun _ => final_start⟩
      | false => exact h
  · exact h

/-- **`netboot_entry`** follows the protocol. -/
theorem follows_netbootEntry : Follows (protocol c) (netbootEntry c n) (Final c) start := by
  have hnone : ∀ l, start.Holds l → start.released = some true := fun l hl =>
    absurd hl.1 (by simp [start])
  refine ⟨⟨rfl, nofun, rfl⟩, fun (failed : Bool) => ?_⟩
  cases failed with
  | true => exact ⟨⟨rfl, nofun, hnone⟩, fun _ => final_start⟩
  | false =>
    refine follows_enableGraphics ⟨⟨rfl, nofun, rfl⟩, fun (p : Params sizeofCmdLine) => ?_⟩
    have ht := terminated_init.overwrite (p.fits.trans_lt (by decide))
    refine (follows_netboot (q := ⟨p.tftpIp, p.bootfile, p.argsfile, some .cmdLine,
      overwrite initCmdLine p.stored⟩) n ht rfl).bind fun e t hpost => ?_
    by_cases he : e = .returned
    · rw [if_pos he]
      obtain ⟨hh, hr⟩ := hpost.returned he
      have hgone : ∀ l, ¬t.Holds l := fun l hl => hl.2 hr
      have hargs : ¬EmptyArgs t := fun hargs => by
        have := hpost.bounds.mpr hargs
        rw [he] at this
        exact absurd this (by decide)
      refine ⟨⟨hh, fun _ => rfl, fun l hl => absurd hl (hgone l)⟩, fun _ => ⟨?_, by simp⟩⟩
      exact ⟨⟨by simp, fun h => absurd h hargs⟩, hpost.booted, by simp, fun l hl => absurd hl (hgone l)⟩
    · rw [if_neg he]
      exact ⟨hpost, he⟩

variable {w w' : World netSig Session} {l : List (NetOp × World netSig Session)}

/-- **In every run, each call is allowed where it is made.** -/
theorem calls_allowed {p : Boot} (h₀ : w.state = start)
    (h : Run (machine (protocol c)) w (netbootEntry c n) l w' p) :
    ∀ x ∈ l, (protocol c).allowed x.1 x.2.state :=
  (Follows.run (h₀ ▸ follows_netbootEntry) h).1

/-- **The address in the command line** that the kernel is started with is that of the server. -/
theorem server_of_boot {p : Boot} (h₀ : w.state = start)
    (h : Run (machine (protocol c)) w (netbootEntry c n) l w' p) :
    ∀ x ∈ l, ∀ b, x.1 = .boot b → ∃ le q, x.2.state.lease = some le ∧ x.2.state.request = some q ∧
      addressOf (text b) = some (q.server le) := by
  intro x hx b hb
  obtain ⟨-, -, hallowed⟩ := (Follows.run (h₀ ▸ follows_netbootEntry) h).1 x hx
  rw [hb] at hallowed
  obtain ⟨le, q, k, hl, -, hq, -, -, -, htext⟩ := hallowed
  exact ⟨le, q, hl, hq, htext ▸ addressOf_serverArg _⟩

/-- **The buffer is left exactly if the file of the command line is empty.** -/
theorem bounds_iff {e : Ended} (h₀ : w.state = start)
    (h : Run (machine (protocol c)) w (netbootEntry c n) l w' (.ret e)) :
    e = .outOfBounds ↔ EmptyArgs w'.state :=
  (Follows.run_ret (h₀ ▸ follows_netbootEntry) h).1.bounds

/-- **The kernel is started exactly if** it was loaded, the lease was released, and there is room for
the server's address.  A lease is left only if its release failed, or the buffer was left. -/
theorem booted_iff {e : Ended} (h₀ : w.state = start)
    (h : Run (machine (protocol c)) w (netbootEntry c n) l w' (.ret e)) :
    (w'.state.booted = true ↔ ¬EmptyArgs w'.state ∧ Bootable c w'.state) ∧
      ∀ l, w'.state.Holds l → e = .outOfBounds ∨ w'.state.released = some true :=
  have hpost := (Follows.run_ret (h₀ ▸ follows_netbootEntry) h).1
  ⟨hpost.booted, hpost.holds⟩

end Entry

/-! ### A run -/

/-- A server whose command line file has these bytes. -/
def server (file : List UInt8) : (o : NetOp) → o.Res
  | .runInitFuncs => false
  | .flagFetchOprom => true
  | .vbnvWriteOprom => ()
  | .coldReboot => false
  | .netbootParamsRead _ => ⟨none, none, some (ascii "args"), [], Nat.zero_le _⟩
  | .netWaitForLink => ()
  | .uipInit => ()
  | .netGetMac => some [2, 0, 0, 0, 0, 1]
  | .uipSetethaddr _ => ()
  | .dhcpRequest => some ⟨⟨10, 0, 0, 1⟩, ⟨10, 0, 0, 2⟩, ascii "kernel"⟩
  | .dhcpRelease _ => false
  | .tftpRead .payload _ _ _ => ⟨false, [], Nat.zero_le _⟩
  | .tftpRead .cmdLine _ _ max =>
    if hm : file.length ≤ max then ⟨false, file, hm⟩ else ⟨true, [], Nat.zero_le _⟩
  | .boot _ => ()
  | .halt => ()

def boots (file : List UInt8) : World netSig Session := ⟨start, server file⟩

def plain : Config := ⟨1, false, false⟩

/-- The command line that the kernel was started with. -/
def started (l : List (NetOp × World netSig Session)) : Option (List UInt8) :=
  l.findSome? fun x => match x.1 with
    | .boot b => some (text b)
    | _ => none

theorem calls_allowed_quiet : ∃ l w' p,
    Run (machine (protocol plain)) (boots (ascii "quiet\r\n")) (netbootEntry plain 1) l w' p ∧
      started l = some (ascii "quiet tftpserverip=10.0.0.1") ∧
        ∀ x ∈ l, (protocol plain).allowed x.1 x.2.state :=
  ⟨_, _, _, run_exec _ _, by decide +kernel, calls_allowed rfl (run_exec _ _)⟩

theorem server_of_boot_quiet : ∃ l w' p,
    Run (machine (protocol plain)) (boots (ascii "quiet\r\n")) (netbootEntry plain 1) l w' p ∧
      (started l).bind addressOf = some ⟨10, 0, 0, 1⟩ ∧
        ∀ x ∈ l, ∀ b, x.1 = .boot b → ∃ le q, x.2.state.lease = some le ∧
          x.2.state.request = some q ∧ addressOf (text b) = some (q.server le) :=
  ⟨_, _, _, run_exec _ _, by decide +kernel, server_of_boot rfl (run_exec _ _)⟩

theorem bounds_iff_empty : ∃ l w',
    Run (machine (protocol plain)) (boots []) (netbootEntry plain 1) l w' (.ret .outOfBounds) ∧
      (Ended.outOfBounds = .outOfBounds ↔ EmptyArgs w'.state) := by
  have hrun := run_exec (M := machine (protocol plain)) (netbootEntry plain 1) (boots [])
  have hend : (exec (machine (protocol plain)) (netbootEntry plain 1) (boots [])).1 = .outOfBounds := by
    decide
  rw [hend] at hrun
  exact ⟨_, _, hrun, bounds_iff rfl hrun⟩

theorem booted_iff_quiet : ∃ l w',
    Run (machine (protocol plain)) (boots (ascii "quiet\r\n")) (netbootEntry plain 1) l w'
      (.ret .halted) ∧ w'.state.booted = true ∧
      (w'.state.booted = true ↔ ¬EmptyArgs w'.state ∧ Bootable plain w'.state) ∧
        ∀ l, w'.state.Holds l → Ended.halted = .outOfBounds ∨ w'.state.released = some true := by
  have hrun := run_exec (M := machine (protocol plain)) (netbootEntry plain 1)
    (boots (ascii "quiet\r\n"))
  have hend : (exec (machine (protocol plain)) (netbootEntry plain 1)
      (boots (ascii "quiet\r\n"))).1 = .halted := by
    decide +kernel
  rw [hend] at hrun
  exact ⟨_, _, hrun, by decide +kernel, booted_iff rfl hrun⟩

end Ipq4019.Netboot.Protocol
