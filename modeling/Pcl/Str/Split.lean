import Pcl.Array.Filled
import Pcl.Str.Search

/-!
# `pcl_strsplit` and `pcl_strisplit`

An empty piece in front of a delimiter is copied with a length of zero, which `pcl_strndup` takes for the
whole rest of the string. The array has room for 2^30 pieces.
-/

namespace Pcl

open Split

/-- The loop of `strsplit_impl`; no fuel, no result. -/
def strsplitLoopExec (fnStrstr : List UInt8 → List UInt8 → Option Nat) (delim : List UInt8) :
    Nat → List UInt8 → PArray CStr → ErrM (PArray CStr)
  | 0, _, _ => ErrM.undef
  | n + 1, s, arr =>
    if s = [] then return arr
    else
      match fnStrstr delim s with
      | none => do
        let (_, arr, _) ← arr.appendExec (some (strndup s 0))
        return arr
      | some p => do
        let (_, arr, _) ← arr.appendExec (some (strndup s p))
        strsplitLoopExec fnStrstr delim n (s.drop (p + delim.length)) arr

/-- `strsplit_impl`; the fuel is enough for every delimiter that is not empty. -/
def strsplitImpl (tl : Tolower) (s : Option CStr) (delim : CStr) (casefold : Bool) : ErrM (PArray CStr) :=
  let s := s.elim [] CStr.bytes
  strsplitLoopExec (if casefold then stristr tl else strstr) delim.bytes (s.length + 1) s (.new 4 true)

/-- `pcl_strsplit`. -/
def strsplit (tl : Tolower) (s : Option CStr) (d : CStr) : ErrM (PArray CStr) := strsplitImpl tl s d false

/-- `pcl_strisplit`. -/
def strisplit (tl : Tolower) (s : Option CStr) (d : CStr) : ErrM (PArray CStr) := strsplitImpl tl s d true

/-- The loop with a list in place of its array. -/
def strsplitLoop (fnStrstr : List UInt8 → List UInt8 → Option Nat) (delim : List UInt8) :
    Nat → List UInt8 → Option (List CStr)
  | 0, _ => none
  | n + 1, s =>
    if s = [] then some []
    else
      match fnStrstr delim s with
      | none => some [strndup s 0]
      | some p => (strsplitLoop fnStrstr delim n (s.drop (p + delim.length))).map (strndup s p :: ·)

variable {find : List UInt8 → List UInt8 → Option Nat} {key : UInt8 → UInt8} {d : List UInt8}

/-- The loop ends. No element has a delimiter exactly where the text is cut into pieces that are not empty, and
then they are the pieces of the text. -/
theorem strsplitLoop_spec (hfind : ∀ s, find d s = search (d.map key) (s.map key)) (hd : d ≠ []) {n : Nat}
    {s : List UInt8} (hn : s.length < n) (hs : (0 : UInt8) ∉ s) :
    ∃ elems, strsplitLoop find d n s = some elems ∧ Cuts key d elems.length s ∧ (elems = [] → s = []) ∧
      ((∀ p ∈ elems, ¬ d.map key <:+: p.bytes.map key) ↔ Apart key d s) ∧
      (Apart key d s → JoinsUpTo key d (elems.map CStr.bytes) s) := by
  have hd' : d.map key ≠ [] := fun h => hd (List.map_eq_nil_iff.1 h)
  induction n generalizing s with
  | zero => exact absurd hn (Nat.not_lt_zero _)
  | succ n ih =>
    unfold strsplitLoop
    by_cases hnil : s = []
    · rw [if_pos hnil]
      have hnone : search (d.map key) (s.map key) = none := by
        rw [search_none, hnil]
        exact fun h => hd' (List.infix_nil.1 h)
      exact ⟨[], rfl, by rw [hnil]; exact .nil, fun _ => hnil, ⟨fun _ => .last hnone, fun _ p hp => absurd hp List.not_mem_nil⟩,
        fun _ => ⟨[], .nil, .inl hnil⟩⟩
    rw [if_neg hnil, hfind]
    cases hp : search (d.map key) (s.map key) with
    | none =>
      have hbytes : (strndup s 0).bytes = s := by rw [strndup_bytes hs, if_pos rfl]
      refine ⟨[strndup s 0], rfl, .last hnil hp, fun h => absurd h (List.cons_ne_nil _ _), ⟨fun _ => .last hp, fun _ => ?_⟩,
        fun _ => ?_⟩
      · rw [List.forall_mem_singleton, hbytes]
        exact search_none.1 hp
      · rw [List.map_singleton, hbytes]
        exact ⟨s, .single s, .inl rfl⟩
    | some i =>
      obtain ⟨c, hc, hcut, hle⟩ := search_cut hp
      have hdlen : 0 < d.length := List.length_pos_iff.2 hd
      obtain ⟨elems, hrun, hcuts, hempty, hiff, hjoin⟩ := ih (s := s.drop (i + d.length))
        (by rw [List.length_drop]; omega) fun h => hs (List.mem_of_mem_drop h)
      have hbytes := strndup_bytes hs i
      refine ⟨strndup s i :: elems, by simp only [hrun, Option.map_some], .cut hnil hp hcuts,
        fun h => absurd h (List.cons_ne_nil _ _), ?_, fun h => ?_⟩
      · rw [List.forall_mem_cons, hiff, Apart.cut_iff hp, hbytes]
        refine and_congr_left fun _ => ?_
        by_cases hi : i = 0
        · -- the element is the text itself, delimiter and all
          rw [if_pos hi]
          have hin : d.map key <:+: s.map key := by
            refine Classical.byContradiction fun hno => ?_
            rw [search_none.2 hno] at hp
            cases hp
          exact ⟨fun h => absurd hin h, fun h => absurd hi h⟩
        · rw [if_neg hi]
          refine ⟨fun _ => hi, fun _ => ?_⟩
          rw [List.map_take]
          exact search_take hd' hp
      · obtain ⟨hi, hrest⟩ := (Apart.cut_iff hp).1 h
        rw [if_neg hi] at hbytes
        rw [List.map_cons, hbytes]
        have h' := JoinsUpTo.cons (s.take i) hc (fun h => hempty (List.map_eq_nil_iff.1 h)) (hjoin hrest)
        rwa [← hcut] at h'

/-- The array takes the pieces as long as its capacity is an `int`. -/
theorem strsplitLoopExec_spec {n : Nat} {s : List UInt8} {elems : List CStr} (hrun : strsplitLoop find d n s = some elems)
    {arr : PArray CStr} {l : List (Option CStr)} (h : Filled arr l) (e : ErrState) :
    (l.length + elems.length ≤ 2 ^ 30 →
      ∃ arr', strsplitLoopExec find d n s arr e = some (arr', e) ∧ Filled arr' (l ++ elems.map some)) ∧
      (¬ l.length + elems.length ≤ 2 ^ 30 → strsplitLoopExec find d n s arr e = none) := by
  induction n generalizing s elems arr l with
  | zero => cases hrun
  | succ n ih =>
    unfold strsplitLoop at hrun
    unfold strsplitLoopExec
    by_cases hnil : s = []
    · rw [if_pos hnil] at hrun ⊢
      cases hrun
      exact ⟨fun _ => ⟨arr, rfl, by rwa [List.map_nil, List.append_nil]⟩, fun hfull => absurd h.length_le hfull⟩
    rw [if_neg hnil] at hrun ⊢
    cases hp : find d s with
    | none =>
      rw [hp] at hrun
      cases hrun
      simp only [List.length_singleton, List.map_singleton, ErrM.bind_run, PArray.appendExec]
      constructor
      · intro hroom
        obtain ⟨arr', hput, h'⟩ := h.append (some (strndup s 0)) hroom e
        exact ⟨arr', by rw [hput]; rfl, h'⟩
      · intro hfull
        rw [h.append_full (some (strndup s 0)) hfull]
        rfl
    | some p =>
      rw [hp] at hrun
      obtain ⟨rest, hrest, rfl⟩ := Option.map_eq_some_iff.1 hrun
      simp only [List.length_cons, List.map_cons, ErrM.bind_run, PArray.appendExec]
      by_cases hroom : l.length < 2 ^ 30
      · obtain ⟨arr₁, hput, h₁⟩ := h.append (some (strndup s p)) hroom e
        obtain ⟨hfits, hfull⟩ := ih hrest h₁
        rw [List.length_append, List.length_singleton, Nat.add_assoc, Nat.add_comm 1] at hfits hfull
        rw [List.append_assoc, List.singleton_append] at hfits
        rw [hput, Option.bind_some]
        exact ⟨hfits, hfull⟩
      · refine ⟨fun hle => absurd hle (by omega), fun _ => ?_⟩
        rw [h.append_full (some (strndup s p)) hroom]
        rfl

/-- The number of the pieces is one that an array has room for. -/
def FewPieces (key : UInt8 → UInt8) (d s : List UInt8) : Prop := ∃ n ≤ 2 ^ 30, Cuts key d n s

theorem strsplitImpl_spec {tl : Tolower} {casefold : Bool} {s delim : CStr} (hd : delim.bytes ≠ [])
    (hfind : ∀ s, (if casefold then stristr tl else strstr) delim.bytes s = search (delim.bytes.map key) (s.map key))
    (e : ErrState) :
    (∃ (arr : PArray CStr) (elems : List CStr), strsplitImpl tl (some s) delim casefold e = some (arr, e) ∧
      arr.list = elems.map some ∧ (∀ p ∈ elems, ¬ delim.bytes.map key <:+: p.bytes.map key) ∧
        JoinsUpTo key delim.bytes (elems.map CStr.bytes) s.bytes) ↔
      Apart key delim.bytes s.bytes ∧ FewPieces key delim.bytes s.bytes := by
  obtain ⟨elems, hrun, hcuts, -, hiff, hjoin⟩ := strsplitLoop_spec hfind hd (Nat.lt_succ_self s.bytes.length) s.nul_free
  obtain ⟨hfits, hfull⟩ := strsplitLoopExec_spec hrun .new e
  rw [List.length_nil, Nat.zero_add] at hfits hfull
  constructor
  · rintro ⟨arr, elems', hexec, hlist, hfree, -⟩
    have hroom : elems.length ≤ 2 ^ 30 := by
      by_contra hroom
      rw [strsplitImpl, Option.elim_some, hfull hroom] at hexec
      cases hexec
    obtain ⟨arr', hexec', hfilled⟩ := hfits hroom
    cases hexec'.symm.trans hexec
    have helems : elems' = elems := by
      rw [hfilled.list_eq, List.nil_append] at hlist
      exact List.map_injective_iff.2 (Option.some_injective _) hlist.symm
    rw [helems] at hfree
    exact ⟨hiff.1 hfree, _, hroom, hcuts⟩
  · rintro ⟨hapart, n, hn, hcuts'⟩
    obtain ⟨arr, hexec, hfilled⟩ := hfits (hcuts.unique hcuts' ▸ hn)
    exact ⟨arr, elems, hexec, hfilled.list_eq, hiff.2 hapart, hjoin hapart⟩

/-- The elements are those of the string exactly when it does not start with the delimiter, no delimiter follows
another at once, and an array has room for the pieces. -/
theorem strsplit_joins_iff (tl : Tolower) (s d : CStr) (hd : d.bytes ≠ []) (e : ErrState) :
    ((∃ (arr : PArray CStr) (elems : List CStr), strsplit tl (some s) d e = some (arr, e) ∧
        arr.list = elems.map some ∧ (∀ p ∈ elems, ¬ d.bytes <:+: p.bytes) ∧
        (s.bytes = d.bytes.intercalate (elems.map CStr.bytes) ∨
          s.bytes = d.bytes.intercalate (elems.map CStr.bytes) ++ d.bytes)) ↔
      Apart id d.bytes s.bytes ∧ FewPieces id d.bytes s.bytes) ∧
    ((∃ (arr : PArray CStr) (elems : List CStr), strisplit tl (some s) d e = some (arr, e) ∧
        arr.list = elems.map some ∧ (∀ p ∈ elems, ¬ d.bytes.map tl.fn <:+: p.bytes.map tl.fn) ∧
        JoinsUpTo tl.fn d.bytes (elems.map CStr.bytes) s.bytes) ↔
      Apart tl.fn d.bytes s.bytes ∧ FewPieces tl.fn d.bytes s.bytes) := by
  constructor
  · have hfind (t : List UInt8) : (if false = true then stristr tl else strstr) d.bytes t =
        search (d.bytes.map id) (t.map id) := by
      rw [if_neg Bool.false_ne_true, strstr_eq_search, List.map_id, List.map_id]
    have hspec := strsplitImpl_spec (s := s) hd hfind e
    simp only [joinsUpTo_id_iff, List.map_id] at hspec
    exact hspec
  · have hfind (t : List UInt8) : (if true = true then stristr tl else strstr) d.bytes t =
        search (d.bytes.map tl.fn) (t.map tl.fn) := by
      rw [if_pos rfl, stristr_eq_search]
    exact strsplitImpl_spec hd hfind e

/-- "a,b" at ",". -/
theorem strsplit_joins_iff_two :
    ((∃ (arr : PArray CStr) (elems : List CStr),
        strsplit .ascii (some (.lit "a,b")) (.lit ",") .zero = some (arr, .zero) ∧ arr.list = elems.map some ∧
        (∀ p ∈ elems, ¬ (CStr.lit ",").bytes <:+: p.bytes) ∧
        ((CStr.lit "a,b").bytes = (CStr.lit ",").bytes.intercalate (elems.map CStr.bytes) ∨
          (CStr.lit "a,b").bytes = (CStr.lit ",").bytes.intercalate (elems.map CStr.bytes) ++ (CStr.lit ",").bytes)) ↔
      Apart id (CStr.lit ",").bytes (CStr.lit "a,b").bytes ∧ FewPieces id (CStr.lit ",").bytes (CStr.lit "a,b").bytes) ∧
    ((∃ (arr : PArray CStr) (elems : List CStr),
        strisplit .ascii (some (.lit "a,b")) (.lit ",") .zero = some (arr, .zero) ∧ arr.list = elems.map some ∧
        (∀ p ∈ elems, ¬ (CStr.lit ",").bytes.map Tolower.ascii.fn <:+: p.bytes.map Tolower.ascii.fn) ∧
        JoinsUpTo Tolower.ascii.fn (CStr.lit ",").bytes (elems.map CStr.bytes) (CStr.lit "a,b").bytes) ↔
      Apart Tolower.ascii.fn (CStr.lit ",").bytes (CStr.lit "a,b").bytes ∧
        FewPieces Tolower.ascii.fn (CStr.lit ",").bytes (CStr.lit "a,b").bytes) :=
  strsplit_joins_iff .ascii (.lit "a,b") (.lit ",") (by decide) .zero

/-- ",a" at ",": the first element is ",a". -/
theorem strsplit_keeps_delimiter :
    (strsplit .ascii (some (.lit ",a")) (.lit ",") .zero).map (fun p => p.1.list) =
      some [some (.lit ",a"), some (.lit "a")] ∧ (CStr.lit ",").bytes <:+: (CStr.lit ",a").bytes := by decide

end Pcl
