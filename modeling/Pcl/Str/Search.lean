import Pcl.Bytes
import Pcl.Lib.Split

/-!
# Copies and searches

`pcl_strndup`, which takes a length of zero for the whole string, `strstr` and `pcl_stristr`.
-/

namespace Pcl

/-- `pcl_strndup`: a length of zero stands for the whole string. -/
def strndup (s : List UInt8) (len : Nat) : CStr := .ofBytes (if len = 0 then s else s.take len)

/-- `pcl_strndup` of the memory from `off` on: the characters it copies, and the end of what it reads; nothing where
that is beyond the memory. -/
def strndupAt (mem : List UInt8) (off len : Nat) : Option (List UInt8 × Nat) :=
  if len = 0 then
    let s := (mem.drop off).takeWhile (· != 0)
    if off + s.length < mem.length then some (s, off + s.length + 1) else none
  else if off + len ≤ mem.length then some ((mem.drop off).take len, off + len) else none

/-- `strstr`: the offset of the first occurrence. -/
def strstr (t : List UInt8) : List UInt8 → Option Nat
  | [] => if t = [] then some 0 else none
  | c :: s => if t <+: c :: s then some 0 else (strstr t s).map (· + 1)

/-- `tolower` of the current locale. -/
structure Tolower where
  fn : UInt8 → UInt8
  nul_iff : ∀ c, fn c = 0 ↔ c = 0

/-- `tolower` of a locale that knows the letters of ASCII. -/
def Tolower.ascii : Tolower where
  fn c := if ch 'A' ≤ c ∧ c ≤ ch 'Z' then c + 32 else c
  nul_iff c := by
    split
    · have hA : ch 'A' = 65 := by decide
      have hZ : ch 'Z' = 90 := by decide
      grind
    · rfl

/-- The inner loop of `pcl_stristr`; the NUL of the haystack is the lower case of nothing in the needle. -/
def stristrMatches (tl : Tolower) : (needle haystack : List UInt8) → Bool
  | [], _ => true
  | _ :: _, [] => false
  | n :: needle, c :: haystack => if tl.fn c ≠ tl.fn n then false else stristrMatches tl needle haystack

/-- `pcl_stristr`: the offset of the first occurrence in any letter case. -/
def stristr (tl : Tolower) : (needle haystack : List UInt8) → Option Nat
  | [], _ => some 0
  | _ :: _, [] => none
  | n :: needle, c :: haystack =>
    if tl.fn c = tl.fn n ∧ stristrMatches tl needle haystack then some 0
    else (stristr tl (n :: needle) haystack).map (· + 1)

theorem ofBytes_of_nul_free {l : List UInt8} (h : (0 : UInt8) ∉ l) : (CStr.ofBytes l).bytes = l := by
  refine List.takeWhile_eq_self_iff.2 fun b hb => ?_
  simpa using fun hb' : b = 0 => h (hb' ▸ hb)

/-- The text in front of the first NUL. -/
theorem ofBytes_append_nul {s : List UInt8} (h : (0 : UInt8) ∉ s) (rest : List UInt8) :
    (CStr.ofBytes (s ++ 0 :: rest)).bytes = s := by
  have hs : ∀ b ∈ s, (b != 0) = true := fun b hb => by
    simpa using fun hb' : b = 0 => h (hb' ▸ hb)
  unfold CStr.ofBytes
  simp [List.takeWhile_append_of_pos hs]

/-- A length cast to `int` does not get larger. -/
theorem bmod_le_self (n : Nat) : Int.bmod n (2 ^ 32) ≤ n := by
  rw [Int.bmod_def]
  split <;> omega

theorem strndup_bytes {s : List UInt8} (hs : (0 : UInt8) ∉ s) (len : Nat) :
    (strndup s len).bytes = if len = 0 then s else s.take len := by
  unfold strndup
  split
  · exact ofBytes_of_nul_free hs
  · exact ofBytes_of_nul_free fun h => hs (List.mem_of_mem_take h)

theorem strndupAt_strndup {mem s : List UInt8} {off len fin : Nat} (h : strndupAt mem off len = some (s, fin)) :
    CStr.ofBytes s = strndup (mem.drop off) len := by
  unfold strndupAt at h
  unfold strndup
  split at h
  · rename_i hlen
    simp only [Option.ite_none_right_eq_some, Option.some.injEq, Prod.mk.injEq] at h
    rw [if_pos hlen, ← h.2.1]
    exact CStr.ofBytes_bytes (CStr.ofBytes (mem.drop off))
  · rename_i hlen
    simp only [Option.ite_none_right_eq_some, Option.some.injEq, Prod.mk.injEq] at h
    rw [if_neg hlen, ← h.2.1]

theorem strstr_eq_search (t s : List UInt8) : strstr t s = Split.search t s := by
  induction s with
  | nil => rfl
  | cons c s ih => rw [strstr, Split.search, ih]

theorem stristrMatches_iff (tl : Tolower) (needle haystack : List UInt8) :
    stristrMatches tl needle haystack = true ↔ needle.map tl.fn <+: haystack.map tl.fn := by
  induction needle generalizing haystack with
  | nil => simp [stristrMatches]
  | cons n needle ih =>
    cases haystack with
    | nil => simp [stristrMatches]
    | cons c haystack =>
      rw [stristrMatches, List.map_cons, List.map_cons, List.cons_prefix_cons, ← ih]
      by_cases h : tl.fn c = tl.fn n
      · simp [h]
      · simp [h, Ne.symm h]

theorem stristr_eq_search (tl : Tolower) (needle haystack : List UInt8) :
    stristr tl needle haystack = Split.search (needle.map tl.fn) (haystack.map tl.fn) := by
  cases needle with
  | nil => cases haystack <;> simp [stristr, Split.search]
  | cons n needle =>
    induction haystack with
    | nil => simp [stristr, Split.search]
    | cons c haystack ih =>
      have hiff : tl.fn c = tl.fn n ∧ stristrMatches tl needle haystack = true ↔
          (n :: needle).map tl.fn <+: (c :: haystack).map tl.fn := by
        rw [stristrMatches_iff, List.map_cons, List.map_cons, List.cons_prefix_cons, eq_comm]
      rw [stristr, ih, List.map_cons (l := haystack), Split.search]
      exact if_congr hiff rfl rfl

end Pcl
