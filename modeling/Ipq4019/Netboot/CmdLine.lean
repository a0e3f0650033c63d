import Ipq4019.Netboot.Driver

/-!
# The network boot: the command line

What the loops of `netboot` make of `cmd_line`.  A file of at least one byte is cleaned within the
buffer: white space and control characters at its end are dropped, and the others become spaces
(`cleanLine_eq`).  At an empty file the byte before the buffer is read (`cleanLine_zero`).  The buffer
ends in 0 throughout (`Terminated`), and the server's address fits whenever it is added
(`put_serverArg`), and can be read back from behind its name (`addressOf_serverArg`).
-/

namespace Ipq4019.Netboot.CmdLine

open Ipq4019.Lib.CString Ipq4019.Netboot.Driver

variable {signed : Bool} {b d t : List UInt8} {n : ℕ} {c : UInt8} {ip ip' : IpAddr}

/-! ### Cleaning -/

/-- White space or a control character. -/
def blank (signed : Bool) (c : UInt8) : Bool := charVal signed c ≤ 32

/-- A control character becomes a space. -/
def spaced (signed : Bool) (c : UInt8) : UInt8 := if charVal signed c < 32 then 32 else c

/-- **The command line that a file holds.** -/
def argLine (signed : Bool) (d : List UInt8) : List UInt8 :=
  (d.rdropWhile (blank signed)).map (spaced signed)

theorem take_succ (h : n < b.length) : ∃ c, peek b n = some c ∧ b.take (n + 1) = b.take n ++ [c] :=
  ⟨b[n], List.getElem?_eq_getElem h, List.take_succ_eq_append_getElem h⟩

/-- **The first loop** finds the end of what is not blank. -/
theorem stripLoop_eq : ∀ {n : ℕ}, n < b.length →
    stripLoop signed b (n + 1) = some ((b.take (n + 1)).rdropWhile (blank signed)).length
  | 0, h => by
    obtain ⟨c, hc, htake⟩ := take_succ h
    unfold stripLoop
    rw [hc, htake, List.take_zero, List.rdropWhile_concat]
    by_cases hb : charVal signed c ≤ 32
    · simp [hb, blank]
    · simp [hb, blank]
  | n + 1, h => by
    obtain ⟨c, hc, htake⟩ := take_succ h
    unfold stripLoop
    rw [hc, htake, List.rdropWhile_concat]
    by_cases hb : charVal signed c ≤ 32
    · have hblank : blank signed c = true := by simp [blank, hb]
      have hloop := stripLoop_eq (n := n) (by omega)
      rw [if_pos hblank, ← hloop]
      simp [hb]
    · have hblank : ¬blank signed c = true := by simp [blank, hb]
      rw [if_neg hblank, List.length_append, List.length_take]
      simp [hb]
      omega

/-- **The second loop** takes the control characters out of the first `n` bytes. -/
theorem blankLoop_eq : ∀ {n : ℕ} {b : List UInt8}, n ≤ b.length →
    blankLoop signed b n = some ((b.take n).map (spaced signed) ++ b.drop n)
  | 0, b, _ => by
    unfold blankLoop
    simp
  | n + 1, b, h => by
    have hn : n < b.length := by omega
    have hset : (if charVal signed b[n] < 32 then poke b n 32 else some b) =
        some (b.set n (spaced signed b[n])) := by
      unfold spaced
      split
      · exact if_pos hn
      · rw [List.set_getElem_self]
    have hdrop : (b.set n (spaced signed b[n])).drop n = spaced signed b[n] :: b.drop (n + 1) := by
      rw [List.drop_eq_getElem_cons (by rwa [List.length_set]), List.getElem_set_self,
        List.drop_set_of_lt (by omega)]
    have hpeek : peek b n = some b[n] := List.getElem?_eq_getElem hn
    have hloop := blankLoop_eq (n := n) (b := b.set n (spaced signed b[n]))
      (by rw [List.length_set]; omega)
    unfold blankLoop
    rw [hpeek, Option.bind_some, hset, Option.bind_some, hloop, List.take_set_of_le le_rfl, hdrop,
      List.take_succ_eq_append_getElem hn, List.map_append]
    simp

/-- **Cleaning a file**, which has at least one byte and does not fill the buffer. -/
theorem cleanLine_eq (h₀ : 0 < n) (h : n < b.length) :
    cleanLine signed b n = some (argLine signed (b.take n) ++
      0 :: b.drop (((b.take n).rdropWhile (blank signed)).length + 1)) := by
  obtain ⟨n, rfl⟩ : ∃ m, n = m + 1 := ⟨n - 1, by omega⟩
  have hstrip : stripLoop signed b (n + 1) = _ := stripLoop_eq (by omega : n < b.length)
  have hstart : (b.take (n + 1)).rdropWhile (blank signed) <+: b.take (n + 1) :=
    List.rdropWhile_prefix _ _
  have hlen := hstart.length_le
  have heq := List.prefix_iff_eq_take.mp (hstart.trans (List.take_prefix _ _))
  unfold cleanLine argLine
  rw [hstrip]
  generalize (b.take (n + 1)).rdropWhile (blank signed) = l at *
  rw [List.length_take] at hlen
  have hpoke : poke b l.length 0 = some (b.set l.length 0) := if_pos (by omega)
  have hdrop : (b.set l.length 0).drop l.length = 0 :: b.drop (l.length + 1) := by
    rw [List.drop_eq_getElem_cons (by rw [List.length_set]; omega), List.getElem_set_self,
      List.drop_set_of_lt (by omega)]
  rw [Option.bind_eq_bind, Option.bind_some, hpoke, Option.bind_eq_bind, Option.bind_some,
    blankLoop_eq (by rw [List.length_set]; omega), List.take_set_of_le le_rfl, ← heq, hdrop]

/-- An empty file makes `netboot` read before the buffer. -/
theorem cleanLine_zero : cleanLine signed b 0 = none := rfl

theorem zero_notMem_argLine : (0 : UInt8) ∉ argLine signed d := by
  intro h
  obtain ⟨c, -, hc⟩ := List.mem_map.mp h
  unfold spaced at hc
  split at hc
  · exact absurd hc (by decide)
  · rename_i hctl
    rw [hc] at hctl
    exact hctl (by cases signed <;> decide)

/-! ### The buffer -/

/-- The buffer has its size, and ends in 0. -/
structure Terminated (b : List UInt8) : Prop where
  size : b.length = sizeofCmdLine
  last : b[sizeofCmdLine - 1]? = some 0

theorem Terminated.zero_mem (h : Terminated b) : (0 : UInt8) ∈ b := List.mem_of_getElem? h.last

theorem terminated_init : Terminated initCmdLine := by
  have hlen : (ascii "console=ttyMSM0,115200n8").length = 24 := by decide
  constructor
  · unfold initCmdLine
    rw [List.length_append, List.length_replicate, hlen]
    rfl
  · unfold initCmdLine
    rw [List.getElem?_append_right (by rw [hlen]; decide), hlen, List.getElem?_replicate]
    rfl

theorem Terminated.overwrite (h : Terminated b) (hd : d.length < sizeofCmdLine) :
    Terminated (overwrite b d) where
  size := by rw [length_overwrite (by rw [h.size]; omega), h.size]
  last := by rw [getElem?_overwrite (by omega), h.last]

theorem Terminated.useArgs (h : Terminated b) (args : Option Args) :
    Terminated (useArgs b args) := by
  rcases args with _ | _ | t
  · exact h
  · exact h
  · refine ⟨?_, ?_⟩
    · unfold Driver.useArgs
      rw [length_strncpy (by rw [h.size]; omega), h.size]
    · unfold Driver.useArgs
      rw [getElem?_strncpy le_rfl, h.last]

theorem Terminated.cleanLine (h : Terminated b) {b' : List UInt8} (hn : n < sizeofCmdLine)
    (hc : cleanLine signed b n = some b') : Terminated b' := by
  rcases Nat.eq_zero_or_pos n with rfl | h₀
  · rw [cleanLine_zero] at hc
    exact absurd hc (by simp)
  · rw [cleanLine_eq h₀ (by rw [h.size]; exact hn)] at hc
    have hlen : ((b.take n).rdropWhile (blank signed)).length ≤ n := by
      have := (List.rdropWhile_prefix (blank signed) (b.take n)).length_le
      rw [List.length_take] at this
      omega
    have hlast := h.last
    have hsize := h.size
    rw [← Option.some.inj hc]
    unfold argLine
    generalize (b.take n).rdropWhile (blank signed) = l at *
    constructor
    · rw [List.length_append, List.length_map, List.length_cons, List.length_drop]
      omega
    · rw [List.getElem?_append_right (by rw [List.length_map]; omega), List.length_map]
      by_cases hend : l.length = sizeofCmdLine - 1
      · simp [hend]
      · rw [show sizeofCmdLine - 1 - l.length = sizeofCmdLine - 1 - (l.length + 1) + 1 by omega,
          List.getElem?_cons_succ, List.getElem?_drop, ← hlast]
        congr 1
        omega

/-- The cleaning of a file that was loaded into the buffer. -/
theorem cleanLine_overwrite (h : Terminated b) (hd : d.length < sizeofCmdLine) (hne : d ≠ []) :
    cleanLine signed (overwrite b d) d.length = some (argLine signed d ++
      0 :: (overwrite b d).drop ((d.rdropWhile (blank signed)).length + 1)) := by
  have hclean : cleanLine signed (overwrite b d) d.length = _ :=
    cleanLine_eq (List.length_pos_iff.mpr hne) (by rwa [(h.overwrite hd).size])
  rw [hclean, take_overwrite]

theorem cleanLine_none (h : Terminated b) (hd : d.length < sizeofCmdLine) :
    cleanLine signed (overwrite b d) d.length = none ↔ d = [] := by
  constructor
  · intro hc
    by_contra hne
    rw [cleanLine_overwrite h hd hne] at hc
    exact absurd hc (by simp)
  · rintro rfl
    rfl

theorem cleanLine_some (h : Terminated b) (hd : d.length < sizeofCmdLine) {b' : List UInt8}
    (hc : cleanLine signed (overwrite b d) d.length = some b') :
    Terminated b' ∧ text b' = argLine signed d := by
  have hne : d ≠ [] := by
    intro he
    rw [(cleanLine_none h hd).mpr he] at hc
    exact absurd hc (by simp)
  refine ⟨(h.overwrite hd).cleanLine hd hc, ?_⟩
  rw [cleanLine_overwrite h hd hne] at hc
  rw [← Option.some.inj hc, text_append_zero zero_notMem_argLine]

theorem toNat_digit {d : Char} (h : d ∈ Nat.toDigits 10 n) : 48 ≤ d.toNat ∧ d.toNat ≤ 57 := by
  have hdig := Nat.isDigit_of_mem_toDigits (by decide) (by decide) h
  have hbound : 48 ≤ d.val ∧ d.val ≤ 57 := by simpa [Char.isDigit] using hdig
  exact ⟨UInt32.le_iff_toNat_le.mp hbound.1, UInt32.le_iff_toNat_le.mp hbound.2⟩

theorem isDigit_decimal (h : c ∈ decimal n) : 48 ≤ c.toNat ∧ c.toNat ≤ 57 := by
  obtain ⟨d, hd, rfl⟩ := List.mem_map.mp h
  have := toNat_digit hd
  rw [UInt8.toNat_ofNat']
  omega

theorem length_decimal (x : UInt8) : (decimal x.toNat).length ≤ 3 := by
  unfold decimal
  rw [List.length_map, Nat.length_toDigits_le_iff (by decide) (by decide)]
  have := x.toNat_lt
  omega

theorem mem_dotted (h : c ∈ dotted ip) : 46 ≤ c.toNat ∧ c.toNat ≤ 57 := by
  have hdot : ∀ {c : UInt8} {x : ℕ}, c ∈ decimal x → 46 ≤ c.toNat ∧ c.toNat ≤ 57 := by
    intro c x hc
    have := isDigit_decimal hc
    omega
  simp only [dotted, List.mem_append, List.mem_cons] at h
  rcases h with h | rfl | h | rfl | h | rfl | h
  · exact hdot h
  · decide
  · exact hdot h
  · decide
  · exact hdot h
  · decide
  · exact hdot h

theorem zero_notMem_serverArg : (0 : UInt8) ∉ serverArg ip := by
  unfold serverArg
  intro h
  rcases List.mem_append.mp h with h | h
  · exact absurd h (by decide)
  · exact absurd (mem_dotted h).1 (by decide)

/-- The address is not longer than the place holder that the room is measured by. -/
theorem length_serverArg (ip : IpAddr) : (serverArg ip).length < sizeofDefTftpCmdline := by
  have h₁ := length_decimal ip.ipaddr1
  have h₂ := length_decimal ip.ipaddr2
  have h₃ := length_decimal ip.ipaddr3
  have h₄ := length_decimal ip.ipaddr4
  have hname : (ascii " tftpserverip=").length = 14 := by decide
  have hsize : sizeofDefTftpCmdline = 30 := by decide
  unfold serverArg dotted
  simp only [List.length_append, List.length_cons]
  omega

/-- **Adding the address stays within the buffer** when there is room for the place holder. -/
theorem put_serverArg (h : Terminated b) (ip : IpAddr)
    (hroom : (text b).length + sizeofDefTftpCmdline - 1 < sizeofCmdLine) :
    ∃ b', put b (text b).length (serverArg ip ++ [0]) = some b' ∧ b'.length = sizeofCmdLine ∧
      (0 : UInt8) ∈ b' ∧ text b' = text b ++ serverArg ip := by
  have hlen := length_serverArg ip
  have hput := put_text (b := b) (d := serverArg ip) (by rw [h.size]; omega) zero_notMem_serverArg
  rwa [h.size] at hput

/-! ### The address read back -/

/-- A number in decimal. -/
def number (s : List UInt8) : UInt8 := UInt8.ofNat (s.foldl (fun n d => 10 * n + (d.toNat - 48)) 0)

/-- **What is behind the last ` tftpserverip=` of a command line**, as an address. -/
def addressOf (line : List UInt8) : Option IpAddr := do
  let value ← behindLast (ascii " tftpserverip=") line
  match (value.splitOn 46).map number with
  | [a, b, c, d] => some ⟨a, b, c, d⟩
  | _ => none

theorem number_decimal (x : UInt8) : number (decimal x.toNat) = x := by
  have hfold : ∀ (cs : List Char) (n : ℕ), (∀ d ∈ cs, d.toNat < 256) →
      (cs.map fun d => UInt8.ofNat d.toNat).foldl (fun n d => 10 * n + (d.toNat - 48)) n =
        Nat.ofDigitChars 10 cs n := by
    intro cs
    induction cs with
    | nil => intro n _; rfl
    | cons d cs ih =>
      intro n hd
      obtain ⟨h, hd⟩ := List.forall_mem_cons.mp hd
      rw [List.map_cons, List.foldl_cons, UInt8.toNat_ofNat', Nat.mod_eq_of_lt h, ih _ hd,
        Nat.ofDigitChars_cons]
      rfl
  have hsmall : ∀ d ∈ Nat.toDigits 10 x.toNat, d.toNat < 256 := fun d hd => by
    have := (toNat_digit hd).2
    omega
  unfold number decimal
  rw [hfold _ _ hsmall, Nat.ofDigitChars_ten_toDigits, UInt8.ofNat_toNat]

/-- **The address can be read back** from a command line that ends in it. -/
theorem addressOf_serverArg (line : List UInt8) : addressOf (line ++ serverArg ip) = some ip := by
  have hname : ascii " tftpserverip=" = 32 :: ascii "tftpserverip=" := by decide
  have hspace : (32 : UInt8) ∉ ascii "tftpserverip=" ++ dotted ip := by
    rintro h
    rcases List.mem_append.mp h with h | h
    · exact absurd h (by decide)
    · exact absurd (mem_dotted h).1 (by decide)
  have hbehind : behindLast (ascii " tftpserverip=") (line ++ serverArg ip) = some (dotted ip) := by
    unfold serverArg
    rw [hname]
    exact behindLast_key hspace line
  have hdot : ∀ x : ℕ, (46 : UInt8) ∉ decimal x := fun x hx =>
    absurd (isDigit_decimal hx).1 (by decide)
  unfold addressOf
  rw [hbehind, Option.bind_eq_bind, Option.bind_some]
  unfold dotted
  rw [List.splitOn_append_cons_self_of_not_mem (hdot _),
    List.splitOn_append_cons_self_of_not_mem (hdot _),
    List.splitOn_append_cons_self_of_not_mem (hdot _), List.splitOn_eq_singleton (hdot _)]
  simp only [List.map_cons, List.map_nil, number_decimal]

/-- Another key does not stand for it. -/
example : addressOf (ascii "quiet x=10.0.0.1") = none := by decide

end Ipq4019.Netboot.CmdLine
