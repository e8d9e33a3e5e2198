import Pcl.Buf.Raw

/-!
# Copies of buffers

No call looks behind the NUL of a buffer: on two buffers that are alike up to there, and differ in the rest of
their blocks, it returns the same and leaves alike buffers (`call_twin`). A copy is alike its source where it
keeps the size of its characters, and nowhere else.
-/

namespace Pcl

/-! ### Two computations side by side -/

/-- Both are undefined, or both are defined with related results and leave the same error state. -/
def ErrM.Twin {α β : Type} (P : α → β → Prop) (x : ErrM α) (x' : ErrM β) : Prop :=
  ∀ e, x e = none ∧ x' e = none ∨ ∃ a a' e', x e = some (a, e') ∧ x' e = some (a', e') ∧ P a a'

namespace ErrM.Twin
variable {α β γ δ : Type} {P : α → β → Prop} {Q : γ → δ → Prop} {x : ErrM α} {x' : ErrM β}

theorem undef : Twin P ErrM.undef ErrM.undef := fun _ => .inl ⟨rfl, rfl⟩

theorem pure {a : α} {a' : β} (h : P a a') : Twin P (pure a) (pure a') := fun e => .inr ⟨a, a', e, rfl, rfl, h⟩

theorem refl (x : ErrM α) : Twin Eq x x := by
  intro e
  cases hx : x e with
  | none => exact .inl ⟨rfl, rfl⟩
  | some p => exact .inr ⟨p.1, p.1, p.2, rfl, rfl, rfl⟩

theorem bind {f : α → ErrM γ} {f' : β → ErrM δ} (h : Twin P x x') (hf : ∀ a a', P a a' → Twin Q (f a) (f' a')) :
    Twin Q (x >>= f) (x' >>= f') := by
  intro e
  rw [ErrM.bind_run, ErrM.bind_run]
  rcases h e with ⟨h, h'⟩ | ⟨a, a', e', h, h', hP⟩
  · exact .inl ⟨by rw [h]; rfl, by rw [h']; rfl⟩
  · rw [h, h']
    exact hf a a' hP e'

theorem ite {c : Prop} [Decidable c] {y : ErrM α} {y' : ErrM β} (h : c → Twin P x x') (h' : ¬ c → Twin P y y') :
    Twin P (if c then x else y) (if c then x' else y') := by
  split
  · exact h ‹_›
  · exact h' ‹_›

theorem checked (ints : List Int) (h : Twin P x x') : Twin P (checked ints x) (checked ints x') :=
  ite (fun _ => h) fun _ => undef

end ErrM.Twin

open ErrM (Twin)

/-! ### Blocks that agree up to somewhere -/

/-- Both pointers are to blocks of one length that agree on their first `k` bytes, or to none. -/
inductive Elems.Agree (k : Nat) : Elems → Elems → Prop
  | wild : Agree k .wild .wild
  | null : Agree k .null .null
  | block {l l' : List (Option UInt8)} (hlen : l.length = l'.length) (h : ∀ i < k, l[i]? = l'[i]?) :
    Agree k (.block l) (.block l')

namespace Elems.Agree
variable {k : Nat} {p p' : Elems}

theorem length_eq (h : Agree k p p') : p.bytes.length = p'.bytes.length := by
  cases h with
  | wild => rfl
  | null => rfl
  | block hlen => exact hlen

theorem getElem? (h : Agree k p p') : ∀ i < k, p.bytes[i]? = p'.bytes[i]? := by
  cases h with
  | wild => exact fun _ _ => rfl
  | null => exact fun _ _ => rfl
  | block _ h => exact h

theorem refl (k : Nat) (p : Elems) : Agree k p p := by
  cases p with
  | wild => exact .wild
  | null => exact .null
  | block l => exact .block rfl fun _ _ => rfl

theorem realloc (h : Agree k p p') {n : Nat} (hn : p.bytes.length ≤ n) (zeroFails : Bool) :
    Twin (fun (q q' : Elems) => Agree k q q' ∧ q.bytes.length = n ∧
        ∀ (i : Nat) c, q.bytes[i]? = some (some c) → p.bytes[i]? = some (some c))
      (.ofMem (pclRealloc p n zeroFails)) (.ofMem (pclRealloc p' n zeroFails)) := by
  by_cases hzero : n = 0 ∧ zeroFails = true
  · cases h with
    | wild => exact .undef
    | null | block => simp only [pclRealloc, if_pos hzero]; exact .undef
  · have hrep {l : List (Option UInt8)} (hl : l.length = p.bytes.length) :
        l.take n ++ List.replicate (n - l.length) none = l ++ List.replicate (n - p.bytes.length) none := by
      rw [List.take_of_length_le (by omega), hl]
    have hback (i : Nat) (c : UInt8) (hc : (p.bytes ++ List.replicate (n - p.bytes.length) none)[i]? = some (some c)) :
        p.bytes[i]? = some (some c) := by
      by_cases hi : i < p.bytes.length
      · rwa [List.getElem?_append_left hi] at hc
      · rw [List.getElem?_append_right (by omega), List.getElem?_replicate] at hc
        split at hc <;> cases hc
    have hlength : (p.bytes ++ List.replicate (n - p.bytes.length) none).length = n := by
      rw [List.length_append, List.length_replicate]
      omega
    cases h with
    | wild => exact .undef
    | null =>
      simp only [pclRealloc, if_neg hzero, hrep rfl]
      exact .pure ⟨.refl _ _, hlength, hback⟩
    | @block l l' hlen h =>
      simp only [pclRealloc, if_neg hzero, Elems.bytes]
      have hl : l.take n ++ List.replicate (n - l.length) none = l ++ List.replicate (n - l.length) none := hrep rfl
      have hl' : l'.take n ++ List.replicate (n - l'.length) none = l' ++ List.replicate (n - l.length) none := hrep hlen.symm
      rw [hl, hl']
      refine .pure ⟨.block ?_ fun i hi => ?_, hlength, hback⟩
      · rw [List.length_append, List.length_append, hlen]
      · by_cases hil : i < l.length
        · rw [List.getElem?_append_left hil, List.getElem?_append_left (by omega), h i hi]
        · rw [List.getElem?_append_right (by omega), List.getElem?_append_right (by omega), hlen]

end Elems.Agree

/-- A string that ends where the blocks agree. -/
theorem strlenIn_agree {j : Nat} {l l' : List (Option UInt8)} (h : ∀ i ≤ j, l[i]? = l'[i]?)
    (hstop : ∀ c, l[j]? = some (some c) → c = 0) : strlenIn l = strlenIn l' ∧ ∀ m, strlenIn l = some m → m ≤ j := by
  induction l generalizing l' j with
  | nil =>
    have h0 := h 0 (Nat.zero_le j)
    cases l' with
    | nil => exact ⟨rfl, nofun⟩
    | cons x l' => cases h0
  | cons x l ih =>
    have h0 := h 0 (Nat.zero_le j)
    cases l' with
    | nil => cases h0
    | cons x' l' =>
      cases (Option.some.inj h0 : x = x')
      cases x with
      | none => exact ⟨rfl, nofun⟩
      | some c =>
        by_cases hc : c = 0
        · rw [strlenIn, strlenIn, if_pos hc, if_pos hc]
          exact ⟨rfl, fun m hm => by cases hm; exact Nat.zero_le _⟩
        · -- the string goes on
          obtain ⟨j, rfl⟩ : ∃ k, j = k + 1 := Nat.exists_eq_succ_of_ne_zero fun hj => hc (hstop c (hj ▸ rfl))
          have hnext : ∀ i ≤ j, l[i]? = l'[i]? := fun i hi => h (i + 1) (by omega)
          obtain ⟨heq, hle⟩ := ih hnext hstop
          rw [strlenIn, strlenIn, if_neg hc, if_neg hc, heq]
          refine ⟨rfl, fun m hm => ?_⟩
          obtain ⟨k, hk, rfl⟩ := Option.map_eq_some_iff.1 hm
          exact Nat.succ_le_succ (hle k (heq ▸ hk))

theorem pclRealloc_length {p : Elems} (hp : p ≠ .wild) {n : Nat} (hn : 0 < n) (zeroFails : Bool) :
    ∃ l, pclRealloc p n zeroFails = .ok (.block l) ∧ l.length = n := by
  have hzero : ¬ (n = 0 ∧ zeroFails = true) := fun h => by omega
  cases p with
  | wild => exact absurd rfl hp
  | null | block l =>
    refine ⟨_, if_neg hzero, ?_⟩
    rw [List.length_append, List.length_take, List.length_replicate]
    omega

theorem loadAt_agree {k pos n : Nat} {l l' : List (Option UInt8)} (hlen : l.length = l'.length)
    (h : ∀ i < k, l[i]? = l'[i]?) (hk : pos + n ≤ k) : loadAt l pos n = loadAt l' pos n := by
  have hpart : (l.drop pos).take n = (l'.drop pos).take n := by
    refine Block.take_agree fun i hi => ?_
    rw [List.getElem?_drop, List.getElem?_drop]
    exact h _ (by omega)
  unfold loadAt
  rw [hlen, hpart]

namespace RawBuf

/-- The buffer with another block: it is like `d` up to its NUL, which is there unless nothing was ever written. -/
structure Alike (b : RawBuf) (d : Elems) : Prop where
  chrsize_eq : b.chrsize = b.mode.chrsize
  pos_le : b.pos ≤ b.len
  length : b.data.bytes.length = b.size * b.chrsize
  agree : Elems.Agree ((b.len + 1) * b.chrsize) b.data d
  stop : b.chrsize = 1 → ∀ c, b.data.bytes[b.len]? = some (some c) → c = 0

/-- Two buffers that differ in their blocks. -/
def Pair (b b' : RawBuf) : Prop := ∃ d, b' = { b with data := d } ∧ b.Alike d

/-- The same result, and two such buffers. -/
def Answer {α : Type} (p p' : α × RawBuf) : Prop := p.1 = p'.1 ∧ Pair p.2 p'.2

variable {b : RawBuf} {d : Elems}

theorem Alike.chrsize_pos (h : b.Alike d) : 0 < b.chrsize := by
  rw [h.chrsize_eq]
  cases b.mode <;> decide

theorem Alike.pair (h : b.Alike d) : Pair b { b with data := d } := ⟨d, rfl, h⟩

theorem Alike.answer {α : Type} (h : b.Alike d) (a : α) : Answer (a, b) (a, { b with data := d }) := ⟨rfl, h.pair⟩

/-- A function that fails and leaves the buffer as it is. -/
theorem Alike.refused {α : Type} (h : b.Alike d) (x : ErrM Int) (out : Int → α) :
    Twin Answer (x >>= fun r => pure (out r, b)) (x >>= fun r => pure (out r, { b with data := d })) :=
  .bind (.refl x) fun r _ hr => hr ▸ .pure (h.answer (out r))

theorem Alike.grow (h : b.Alike d) (zeroFails : Bool) (len : Int) :
    Twin Pair (b.grow zeroFails len) (grow zeroFails { b with data := d } len) := by
  unfold RawBuf.grow
  refine .checked _ (.ite (fun hlen => .checked _ ?_) fun _ => .pure h.pair)
  have hsize : b.data.bytes.length ≤ ((b.size + (len - ((b.size : Int) - b.pos))) * 2).toNat * b.chrsize := by
    rw [h.length]
    exact Nat.mul_le_mul_right _ (by omega)
  refine .bind (h.agree.realloc hsize zeroFails) fun q q' hq => .pure ⟨q', rfl, ?_⟩
  obtain ⟨hagree, hlength, hback⟩ := hq
  exact ⟨h.chrsize_eq, h.pos_le, hlength, hagree, fun hone c hc => h.stop hone c (hback _ c hc)⟩

theorem Alike.write (h : b.Alike d) {s : List UInt8} {n : Nat} (hlow : n * b.chrsize ≤ s.length)
    (hhigh : s.length ≤ (n + 1) * b.chrsize) : Twin Pair (b.write s n) (write { b with data := d } s n) := by
  have hpos : b.pos * b.chrsize ≤ (b.len + 1) * b.chrsize := Nat.mul_le_mul_right _ (by have := h.pos_le; omega)
  have hlens : (s.map some).length = s.length := List.length_map _
  unfold RawBuf.write
  dsimp only
  rcases Block.store_agree h.agree.length_eq h.agree.getElem? hpos (s.map some) with ⟨h₁, h₁'⟩ | ⟨m, m', h₁, h₁', hlen, hagree⟩
  · rw [h₁, h₁']
    exact .undef
  · rw [hlens] at hagree
    have hend : (b.pos + n) * b.chrsize ≤ max ((b.len + 1) * b.chrsize) (b.pos * b.chrsize + s.length) := by
      rw [Nat.add_mul]
      omega
    rw [h₁, h₁', Option.bind_some, Option.bind_some]
    rcases Block.store_agree hlen hagree hend (List.replicate b.chrsize (some 0)) with
      ⟨h₂, h₂'⟩ | ⟨q, q', h₂, h₂', hlen', hagree'⟩
    · rw [h₂, h₂']
      exact .undef
    · rw [h₂, h₂']
      refine .pure ⟨.block q', rfl, h.chrsize_eq, Nat.le_max_right _ _, ?_, .block hlen' fun i hi => ?_, ?_⟩
      · show q.length = _
        rw [Block.store_length h₂, Block.store_length h₁, h.length]
      · refine hagree' i (Nat.lt_of_lt_of_le hi ?_)
        show (max b.len (b.pos + n) + 1) * b.chrsize ≤ _
        rw [List.length_replicate]
        rcases Nat.le_total b.len (b.pos + n) with hle | hle
        · rw [Nat.max_eq_right hle, Nat.add_mul _ 1, Nat.one_mul]
          exact Nat.le_max_right _ _
        · rw [Nat.max_eq_left hle]
          omega
      · intro hone c hc
        change q[max b.len (b.pos + n)]? = _ at hc
        rw [hone, Nat.mul_one] at h₁ h₂ hlow hhigh
        rw [Block.store_getElem? h₂, List.length_replicate] at hc
        by_cases hle : b.len ≤ b.pos + n
        · rw [Nat.max_eq_right hle, if_neg (by omega), if_pos (by omega), Nat.sub_self] at hc
          cases hc
          rfl
        · -- the old text goes on behind the new NUL
          rw [Nat.max_eq_left (by omega), if_neg (by omega), if_neg (by omega), Block.store_getElem? h₁, hlens,
            if_neg (by omega), if_neg (by omega)] at hc
          exact h.stop hone c hc

theorem Alike.put (h : b.Alike d) (zeroFails : Bool) (data : List UInt8) (len : Int) :
    Twin Answer (b.put zeroFails data len) (put zeroFails { b with data := d } data len) := by
  unfold RawBuf.put
  refine .ite (fun _ => h.refused _ id) fun _ => .checked _ (.bind (h.grow zeroFails _) ?_)
  rintro g _ ⟨q, rfl, hg⟩
  refine .checked _ ?_
  by_cases hread : len < 0 ∨ (data.length : Int) < len * g.chrsize
  · rw [if_pos hread, if_pos hread]
    exact .undef
  · rw [if_neg hread, if_neg hread]
    obtain ⟨n, rfl⟩ := Int.eq_ofNat_of_zero_le (not_lt.1 (not_or.1 hread).1)
    have hlen : (data.take (n * g.chrsize)).length = n * g.chrsize := by
      rw [List.length_take]
      exact Nat.min_eq_left (by have := (not_or.1 hread).2; exact_mod_cast not_lt.1 this)
    have hle : (data.take (n * g.chrsize)).length ≤ (n + 1) * g.chrsize :=
      hlen.symm ▸ Nat.mul_le_mul_right _ (Nat.le_succ n)
    refine .bind (hg.write (Nat.le_of_eq hlen.symm) hle) ?_
    rintro w _ ⟨r, rfl, hw⟩
    exact .pure (hw.answer _)

theorem Alike.putint (h : b.Alike d) (zeroFails : Bool) (l : Loc) (n i : Nat) :
    Twin Answer (b.putint zeroFails l n i) (putint zeroFails { b with data := d } l n i) :=
  .ite (fun _ => h.refused _ id) fun _ => h.put zeroFails _ _

theorem Alike.putint8 (h : b.Alike d) (zeroFails : Bool) (i : UInt8) :
    Twin Answer (b.putint8 zeroFails i) (putint8 zeroFails { b with data := d } i) :=
  .ite (fun _ => h.put zeroFails _ _) fun _ => h.refused _ id

theorem Alike.putstr (h : b.Alike d) (zeroFails : Bool) (s : List UInt8) :
    Twin Answer (b.putstr zeroFails s) (putstr zeroFails { b with data := d } s) := by
  unfold RawBuf.putstr
  dsimp only
  generalize (if b.chrsize = 1 then strlenIn (s.map some) else wcslen s) = len
  cases len with
  | none => exact .undef
  | some len => exact .checked _ (h.put zeroFails s _)

theorem chars_length (s : List UInt32) (n : Nat) : (s.flatMap fun c => leBytes n c.toNat).length = s.length * n := by
  induction s with
  | nil => exact (Nat.zero_mul n).symm
  | cons c s ih => rw [List.flatMap_cons, List.length_append, ih, leBytes_length, List.length_cons, Nat.succ_mul, Nat.add_comm]

theorem Alike.vputf (h : b.Alike d) (zeroFails : Bool) (s : Except Int (List UInt32)) :
    Twin Answer (b.vputf zeroFails s) (vputf zeroFails { b with data := d } s) := by
  cases s with
  | error err => exact .checked _ (h.refused _ id)
  | ok s =>
    refine .checked _ (.bind (h.grow zeroFails _) ?_)
    rintro g _ ⟨q, rfl, hg⟩
    have hchars := chars_length (s ++ [0]) g.chrsize
    rw [List.length_append, List.length_singleton] at hchars
    refine .checked _ (.bind (hg.write ?_ ?_) ?_)
    · rw [hchars]
      exact Nat.mul_le_mul_right _ (by split <;> omega)
    · rw [hchars]
      exact Nat.mul_le_mul_right _ (by split <;> omega)
    · rintro w _ ⟨r, rfl, hw⟩
      exact .pure (hw.answer _)

theorem Alike.get (h : b.Alike d) (buf : List UInt8) (len : Int) :
    Twin Answer (b.get buf len) (get { b with data := d } buf len) := by
  refine .ite (fun _ => h.refused _ fun r => (r, buf)) fun _ => .checked _ (.ite (fun _ => h.refused _ fun r => (r, buf))
    fun hend => .ite (fun _ => .undef) fun hneg => .checked _ ?_)
  obtain ⟨n, rfl⟩ := Int.eq_ofNat_of_zero_le (not_lt.1 hneg)
  have hle : b.pos + n ≤ b.len := by
    have := h.pos_le
    omega
  have hk : b.pos * b.chrsize + n * b.chrsize ≤ (b.len + 1) * b.chrsize := by
    rw [← Nat.add_mul]
    exact Nat.mul_le_mul_right _ (by omega)
  have hload := loadAt_agree h.agree.length_eq h.agree.getElem? hk
  simp only [Int.toNat_natCast, ← hload]
  cases (loadAt b.data.bytes (b.pos * b.chrsize) (n * b.chrsize)).bind (storeFront buf) with
  | none => exact .undef
  | some buf => exact .pure ⟨rfl, d, rfl, h.chrsize_eq, hle, h.length, h.agree, h.stop⟩

theorem Alike.getstr (h : b.Alike d) (buf : List UInt8) (len : Int) :
    Twin Answer (b.getstr buf len) (getstr { b with data := d } buf len) := by
  refine .ite (fun _ => h.refused _ fun r => (r, buf)) fun hmode => ?_
  have hone : b.chrsize = 1 := by rw [h.chrsize_eq, not_not.1 hmode, BufMode.chrsize]
  have hagree := h.agree.getElem?
  rw [hone, Nat.mul_one] at hagree
  have hdrop : ∀ i ≤ b.len - b.pos, (b.data.bytes.drop b.pos)[i]? = (d.bytes.drop b.pos)[i]? := fun i hi => by
    rw [List.getElem?_drop, List.getElem?_drop]
    exact hagree _ (by have := h.pos_le; omega)
  have hstop (c : UInt8) (hc : (b.data.bytes.drop b.pos)[b.len - b.pos]? = some (some c)) : c = 0 := by
    rw [List.getElem?_drop, Nat.add_sub_cancel' h.pos_le] at hc
    exact h.stop hone c hc
  dsimp only
  rw [← (strlenIn_agree hdrop hstop).1]
  cases strlenIn (b.data.bytes.drop b.pos) with
  | none => exact .undef
  | some m => exact .checked _ (.ite (fun _ => h.refused _ fun r => (r, buf)) fun _ => h.get buf _)

theorem Alike.getint8 (h : b.Alike d) (i : UInt8) : Twin Answer (b.getint8 i) (getint8 { b with data := d } i) :=
  .ite (fun _ => h.get _ _) fun _ => h.refused _ fun r => (r, [i])

theorem Alike.getint (h : b.Alike d) (bad trace : Loc) (n i : Nat) :
    Twin Answer (b.getint bad trace n i) (getint { b with data := d } bad trace n i) := by
  refine .ite (fun _ => h.refused _ fun r => (r, leBytes n i)) fun _ => .bind (h.get _ _) ?_
  rintro ⟨⟨r, buf⟩, g⟩ ⟨⟨r', buf'⟩, g'⟩ ⟨hout, q, hg', hg⟩
  cases hout
  cases hg'
  exact .ite (fun _ => hg.refused _ fun r => (r, buf)) fun _ => .pure (hg.answer _)

theorem Alike.reset (h : b.Alike d) : Twin Pair b.reset (reset { b with data := d }) := by
  have hagree := h.agree
  have hlength := h.length
  unfold RawBuf.reset
  dsimp only
  generalize b.data = p at hagree hlength
  cases hagree with
  | wild => exact .undef
  | null =>
    exact .pure ⟨.null, rfl, h.chrsize_eq, Nat.le_refl 0, hlength, .null, nofun⟩
  | @block l l' hlen hk =>
    rcases Block.store_agree hlen hk (Nat.zero_le _) (List.replicate b.chrsize (some 0)) with
      ⟨hst, hst'⟩ | ⟨q, q', hst, hst', hlen', hagree'⟩
    · simp only [hst, hst']
      exact .undef
    · simp only [hst, hst']
      refine .pure ⟨.block q', rfl, h.chrsize_eq, Nat.le_refl 0, ?_, .block hlen' fun i hi => ?_, ?_⟩
      · exact (Block.store_length hst).trans hlength
      · refine hagree' i ?_
        rw [List.length_replicate]
        dsimp only at hi
        omega
      · intro _ c hc
        change q[0]? = _ at hc
        rw [Block.store_getElem? hst, if_neg (Nat.not_lt_zero 0), List.length_replicate,
          if_pos (by have := h.chrsize_pos; omega), Nat.sub_self, List.getElem?_replicate_of_lt h.chrsize_pos] at hc
        cases hc
        rfl

theorem Alike.clear (h : b.Alike d) : Twin Pair b.clear (clear { b with data := d }) := by
  have hcleared : Alike { b with size := 0, len := 0, pos := 0, data := .null } .null :=
    ⟨h.chrsize_eq, Nat.le_refl 0, (Nat.zero_mul _).symm, .null, nofun⟩
  have hagree := h.agree
  unfold RawBuf.clear
  dsimp only
  generalize b.data = p at hagree
  cases hagree with
  | wild => exact .undef
  | null => exact .pure ⟨.null, rfl, hcleared⟩
  | block => exact .pure ⟨.null, rfl, hcleared⟩

theorem Alike.seek (h : b.Alike d) (pos : Nat) : Twin Pair (b.seek pos) (seek { b with data := d } pos) :=
  .ite (fun hpos => .pure ⟨d, rfl, h.chrsize_eq, hpos, h.length, h.agree, h.stop⟩) fun _ => .undef

theorem noOutput_twin {x x' : ErrM (Int × RawBuf)} (h : Twin Answer x x') : Twin Answer (noOutput x) (noOutput x') := by
  refine .bind h ?_
  rintro ⟨r, g⟩ ⟨r', g'⟩ ⟨hr, hg⟩
  cases hr
  exact .pure ⟨rfl, hg⟩

theorem noResult_twin {x x' : ErrM RawBuf} (h : Twin Pair x x') : Twin Answer (noResult x) (noResult x') :=
  .bind h fun _ _ hg => .pure ⟨rfl, hg⟩

theorem Alike.call (h : b.Alike d) (zeroFails : Bool) (op : BufCall) :
    Twin Answer (b.call zeroFails op) (call zeroFails { b with data := d } op) := by
  cases op with
  | put data len => exact noOutput_twin (h.put zeroFails data len)
  | putchar c => exact noOutput_twin (h.put zeroFails _ 1)
  | putstr s => exact noOutput_twin (h.putstr zeroFails s)
  | putint8 i => exact noOutput_twin (h.putint8 zeroFails i)
  | putint16 i => exact noOutput_twin (h.putint zeroFails _ 2 _)
  | putint32 i => exact noOutput_twin (h.putint zeroFails _ 4 _)
  | putint64 i => exact noOutput_twin (h.putint zeroFails _ 8 _)
  | vputf s => exact noOutput_twin (h.vputf zeroFails s)
  | get buf len => exact h.get buf len
  | getstr buf len => exact h.getstr buf len
  | getchar c => exact h.get _ 1
  | getint8 i => exact h.getint8 i
  | getint16 i => exact h.getint _ _ 2 _
  | getint32 i => exact h.getint _ _ 4 _
  | getint64 i => exact h.getint _ _ 8 _
  | grow len => exact noResult_twin (h.grow zeroFails len)
  | reset => exact noResult_twin h.reset
  | clear => exact noResult_twin h.clear
  | seek pos => exact noResult_twin (h.seek pos)

theorem Alike.visible (h : b.Alike d) : visible { b with data := d } = b.visible := by
  obtain ⟨mode, chrsize, pos, len, size, data⟩ := b
  have hagree : Elems.Agree ((len + 1) * chrsize) data d := h.agree
  clear h
  cases hagree with
  | wild => rfl
  | null => rfl
  | @block l l' _ hk =>
    simp only [RawBuf.visible, Block.take_agree hk]

theorem Alike.calls (h : b.Alike d) (zeroFails : Bool) (ops : List BufCall) :
    Twin Eq (calls zeroFails ops b) (calls zeroFails ops { b with data := d }) := by
  induction ops generalizing b d with
  | nil => exact .pure rfl
  | cons op ops ih =>
    refine .bind (h.call zeroFails op) ?_
    rintro ⟨out, g⟩ ⟨out', g'⟩ ⟨hout, q, hg', hg⟩
    cases hout
    cases hg'
    refine .bind (ih hg) fun outs outs' houts => .pure ?_
    rw [houts, hg.visible]

/-! ### The copy -/

theorem init_length (size : Nat) (mode : BufMode) : (init size mode).data.bytes.length = size * mode.chrsize := by
  cases size with
  | zero => exact (Nat.zero_mul _).symm
  | succ n =>
    show (List.replicate mode.chrsize (some 0) ++ List.replicate (n * mode.chrsize) none : List (Option UInt8)).length = _
    rw [List.length_append, List.length_replicate, List.length_replicate, Nat.succ_mul, Nat.add_comm]

theorem alike_init (size : Nat) (mode : BufMode) : (init size mode).Alike (init size mode).data := by
  refine ⟨rfl, Nat.le_refl 0, init_length size mode, .refl _ _, fun hone c hc => ?_⟩
  cases size with
  | zero => cases hc
  | succ n =>
    have hpos : 0 < mode.chrsize := Nat.lt_of_lt_of_eq Nat.one_pos hone.symm
    change (List.replicate mode.chrsize (some 0) ++ List.replicate (n * mode.chrsize) none : List (Option UInt8))[0]? = _ at hc
    rw [List.getElem?_append_left (by rwa [List.length_replicate]), List.getElem?_replicate_of_lt hpos] at hc
    cases hc
    rfl

theorem Alike.self (h : b.Alike d) : b.Alike b.data := { h with agree := .refl _ _ }

theorem Alike.other (h : b.Alike d) : Alike { b with data := d } d where
  chrsize_eq := h.chrsize_eq
  pos_le := h.pos_le
  length := h.agree.length_eq.symm.trans h.length
  agree := .refl _ _
  stop hone c hc := by
    refine h.stop hone c ((h.agree.getElem? b.len ?_).trans hc)
    exact Nat.lt_of_lt_of_le (Nat.lt_succ_self _) (Nat.le_mul_of_pos_right _ h.chrsize_pos)

/-- The text goes into any block of the size of the source. -/
theorem Alike.copyBytes (h : b.Alike b.data) (hroom : b.len < b.size) {data : Elems}
    (hdata : data.bytes.length = b.size * b.chrsize) :
    ∃ q, copyBytes { b with data := data } b ((b.len + 1) * b.chrsize) = pure { b with data := q } ∧ b.Alike q := by
  have hn : (b.len + 1) * b.chrsize ≤ b.size * b.chrsize := Nat.mul_le_mul_right _ hroom
  have hpos : 0 < (b.len + 1) * b.chrsize := Nat.mul_pos (Nat.succ_pos _) h.chrsize_pos
  have hlength := h.length
  generalize hbytes : b.data.bytes = bytes at hlength
  have hload : Block.load bytes 0 ((b.len + 1) * b.chrsize) = some (bytes.take ((b.len + 1) * b.chrsize)) := if_pos (by omega)
  have htake : (bytes.take ((b.len + 1) * b.chrsize)).length = (b.len + 1) * b.chrsize := by
    rw [List.length_take]
    omega
  obtain ⟨q, hstore⟩ : ∃ q, Block.store data.bytes 0 (bytes.take ((b.len + 1) * b.chrsize)) = some q := ⟨_, if_pos (by omega)⟩
  have hblock : b.data = .block bytes := by
    cases hd : b.data with
    | block l => rw [← hbytes, hd]; rfl
    | wild | null =>
      rw [hd] at hbytes
      subst hbytes
      change 0 = _ at hlength
      omega
  refine ⟨.block q, ?_, { h with agree := ?_ }⟩
  · unfold RawBuf.copyBytes
    simp only [hbytes, hload, Option.bind_some, hstore]
  · rw [hblock]
    refine .block ?_ fun i hi => ?_
    · rw [Block.store_length hstore, hlength, hdata]
    · rw [Block.store_getElem? hstore, if_neg (Nat.not_lt_zero i), htake, if_pos (by omega), Nat.sub_zero,
        List.getElem?_take_of_lt hi]

theorem copyBytes_inv {src dest d : RawBuf} {n : Nat} {e e' : ErrState} (hrun : copyBytes dest src n e = some (d, e')) :
    n ≤ src.data.bytes.length ∧ n ≤ dest.data.bytes.length ∧ d.chrsize = dest.chrsize := by
  unfold RawBuf.copyBytes at hrun
  by_cases hload : n ≤ src.data.bytes.length
  · have hn : (src.data.bytes.take n).length = n := by
      rw [List.length_take]
      omega
    rw [Block.load, if_pos (by omega), Option.bind_some, Block.store, List.drop_zero, hn, Nat.zero_add] at hrun
    by_cases hstore : n ≤ dest.data.bytes.length
    · rw [if_pos hstore] at hrun
      cases hrun
      exact ⟨hload, hstore, rfl⟩
    · rw [if_neg hstore] at hrun
      cases hrun
  · rw [Block.load, if_neg (by omega)] at hrun
    cases hrun

theorem copyDest_some {dest src g : RawBuf} {zeroFails : Bool} {e e' : ErrState}
    (hrun : copyDest zeroFails (some dest) src e = some (g, e')) : e' = e ∧ ∃ data,
      pclRealloc dest.data (src.size * src.chrsize) zeroFails = .ok data ∧
        g = { dest with data := data, mode := src.mode, size := src.size } := by
  unfold copyDest at hrun
  dsimp only at hrun
  cases hrealloc : pclRealloc dest.data (src.size * src.chrsize) zeroFails with
  | error fault =>
    rw [hrealloc] at hrun
    cases hrun
  | ok data =>
    rw [hrealloc] at hrun
    cases hrun
    exact ⟨rfl, data, rfl, rfl⟩

theorem copyDest_chrsize {dest src g : RawBuf} {zeroFails : Bool} {e e' : ErrState}
    (hrun : copyDest zeroFails (some dest) src e = some (g, e')) : dest.data ≠ .wild ∧ g.chrsize = dest.chrsize := by
  obtain ⟨-, data, hrealloc, rfl⟩ := copyDest_some hrun
  refine ⟨fun hw => ?_, rfl⟩
  rw [hw] at hrealloc
  cases hrealloc

theorem copy_inv {dest : Option RawBuf} {src d : RawBuf} {zeroFails : Bool} {e e' : ErrState}
    (hrun : copy zeroFails dest (some src) e = some (some d, e')) : ∃ g, copyDest zeroFails dest src e = some (g, e) ∧
      InInt (((src.len + 1) * g.chrsize : Nat) : Int) ∧
        copyBytes { g with len := src.len, pos := src.pos } src ((src.len + 1) * g.chrsize) e = some (d, e') := by
  obtain ⟨⟨g, e₁⟩, hdest, hrest⟩ := Option.bind_eq_some_iff.1 hrun
  have he : e₁ = e := by
    cases dest with
    | none =>
      cases hdest
      rfl
    | some dest => exact (copyDest_some hdest).1
  subst he
  refine ⟨g, hdest, ?_⟩
  change checked _ _ _ = _ at hrest
  unfold checked at hrest
  split at hrest
  · rename_i hrange
    obtain ⟨p, hbytes, hp⟩ := Option.bind_eq_some_iff.1 hrest
    cases hp
    exact ⟨hrange _ (List.mem_cons_of_mem _ List.mem_cons_self), hbytes⟩
  · cases hrest

/-- The copy is made, has the fields and the contents of its source, and no calls after it tell the two apart. -/
def CopyMeets (zeroFails : Bool) (dest src : RawBuf) (e : ErrState) : Prop :=
  ∃ d e', copy zeroFails (some dest) (some src) e = some (some d, e') ∧
    (d.mode = src.mode ∧ d.chrsize = src.chrsize ∧ d.pos = src.pos ∧ d.len = src.len ∧ d.size = src.size) ∧
    d.data.bytes.take ((src.len + 1) * src.chrsize) = src.data.bytes.take ((src.len + 1) * src.chrsize) ∧
    ∀ ops e, calls zeroFails ops d e = calls zeroFails ops src e

/-- The buffer that is filled, with characters of the same size. -/
theorem copyDest_fields {dest : Option RawBuf} {src g : RawBuf} {zeroFails : Bool} {e : ErrState}
    (hsrc : src.Alike src.data) (hchr : ∀ d, dest = some d → d.chrsize = src.chrsize)
    (hrun : copyDest zeroFails dest src e = some (g, e)) : g.mode = src.mode ∧ g.chrsize = src.chrsize ∧ g.size = src.size ∧
      (0 < src.size → g.data.bytes.length = src.size * src.chrsize) := by
  cases dest with
  | none =>
    cases hrun
    exact ⟨rfl, hsrc.chrsize_eq.symm, rfl, fun _ => hsrc.chrsize_eq ▸ init_length src.size src.mode⟩
  | some dest =>
    have hwild := (copyDest_chrsize hrun).1
    obtain ⟨-, data, hrealloc, rfl⟩ := copyDest_some hrun
    refine ⟨rfl, hchr dest rfl, rfl, fun hsize => ?_⟩
    obtain ⟨l, hl, hlength⟩ := pclRealloc_length hwild (Nat.mul_pos hsize hsrc.chrsize_pos) zeroFails
    cases hl.symm.trans hrealloc
    exact hlength

theorem copy_defined {dest src : RawBuf} (hsrc : src.Alike src.data) (hchr : dest.chrsize = src.chrsize)
    (hdest : dest.data ≠ .wild) (hroom : src.len < src.size) (hint : InInt (((src.len + 1) * src.chrsize : Nat) : Int))
    (zeroFails : Bool) (e : ErrState) : ∃ d, copy zeroFails (some dest) (some src) e = some (some d, e) := by
  have hint' : InInt ((src.len : Int) + 1) := by
    have hle : src.len + 1 ≤ (src.len + 1) * src.chrsize := Nat.le_mul_of_pos_right _ hsrc.chrsize_pos
    unfold InInt intMin intMax at *
    omega
  have hrange : ∀ i ∈ [(src.len : Int) + 1, (((src.len + 1) * src.chrsize : Nat) : Int)], InInt i := by
    simp only [List.forall_mem_cons, List.not_mem_nil, false_implies, implies_true, and_true]
    exact ⟨hint', hint⟩
  obtain ⟨l, hrealloc, hl⟩ :=
    pclRealloc_length hdest (Nat.mul_pos (Nat.zero_lt_of_lt hroom) hsrc.chrsize_pos) zeroFails
  have hblock : (Elems.block l).bytes.length = src.size * src.chrsize := hl
  obtain ⟨q, hcopy, -⟩ := hsrc.copyBytes hroom hblock
  have hbuf : copyDest zeroFails (some dest) src =
      pure { dest with data := .block l, mode := src.mode, size := src.size } := by
    unfold copyDest
    dsimp only
    rw [hrealloc]
    rfl
  refine ⟨{ src with data := q }, ?_⟩
  show (copyDest zeroFails (some dest) src >>= fun dest =>
    checked [(src.len : Int) + 1, (((src.len + 1) * dest.chrsize : Nat) : Int)]
      (RawBuf.copyBytes { dest with len := src.len, pos := src.pos } src ((src.len + 1) * dest.chrsize) >>=
        fun dest => pure (some dest))) e = _
  rw [hbuf, ErrM.bind_run, ErrM.pure_run, Option.bind_some]
  dsimp only
  rw [hchr, checked, if_pos hrange, hcopy]
  rfl

theorem copy_alike {dest : Option RawBuf} {src d : RawBuf} {zeroFails : Bool} {e e' : ErrState}
    (hsrc : src.Alike src.data) (hchr : ∀ d, dest = some d → d.chrsize = src.chrsize)
    (hrun : copy zeroFails dest (some src) e = some (some d, e')) : ∃ q, d = { src with data := q } ∧ src.Alike q := by
  obtain ⟨g, hdest, -, hbytes⟩ := copy_inv hrun
  obtain ⟨hmode, hchrsize, hsize, hlength⟩ := copyDest_fields hsrc hchr hdest
  rw [hchrsize] at hbytes
  have hroom : src.len < src.size := by
    have hload := (copyBytes_inv hbytes).1
    rw [hsrc.length] at hload
    exact Nat.le_of_mul_le_mul_right hload hsrc.chrsize_pos
  obtain ⟨q, hcopy, hq⟩ := hsrc.copyBytes hroom (hlength (by omega))
  obtain ⟨mode, chrsize, pos, len, size, data⟩ := g
  cases hmode
  cases hchrsize
  cases hsize
  rw [hcopy] at hbytes
  cases hbytes
  exact ⟨q, rfl, hq⟩

theorem Reach.alike {zeroFails : Bool} (h : Reach zeroFails b) : b.Alike b.data := by
  induction h with
  | init size mode => exact alike_init size mode
  | @call b b' op out e e' _ hrun ih =>
    rcases ih.call zeroFails op e with ⟨hnone, -⟩ | ⟨p, p', e₁, hsome, -, -, q, -, hq⟩
    · rw [hrun] at hnone
      cases hnone
    · rw [hrun] at hsome
      cases hsome
      exact hq.self
  | copy hdest hsrc hchr hrun ihdest ihsrc =>
    obtain ⟨q, rfl, hq⟩ := copy_alike ihsrc hchr hrun
    exact hq.other

/-- A copy meets this just when the destination has characters of the same size and a pointer that was set, and the
source has a block: it was not cleared, and not initialised for no characters. -/
theorem copy_meets_iff {zeroFails : Bool} {src : RawBuf} (hsrc : Reach zeroFails src) (dest : RawBuf) (e : ErrState) :
    CopyMeets zeroFails dest src e ↔ dest.chrsize = src.chrsize ∧ dest.data ≠ .wild ∧ src.len < src.size ∧
      InInt (((src.len + 1) * src.chrsize : Nat) : Int) := by
  have halike := hsrc.alike
  constructor
  · rintro ⟨d, e', hrun, ⟨-, hchr, -⟩, -⟩
    obtain ⟨g, hdest, hint, hbytes⟩ := copy_inv hrun
    obtain ⟨hwild, hg⟩ := copyDest_chrsize hdest
    obtain ⟨hload, -, hd⟩ := copyBytes_inv hbytes
    have heq : g.chrsize = src.chrsize := hd.symm.trans hchr
    rw [heq] at hload hint
    rw [halike.length] at hload
    exact ⟨hg.symm.trans heq, hwild, Nat.le_of_mul_le_mul_right hload halike.chrsize_pos, hint⟩
  · rintro ⟨hchr, hwild, hroom, hint⟩
    obtain ⟨d, hrun⟩ := copy_defined halike hchr hwild hroom hint zeroFails e
    obtain ⟨q, rfl, hq⟩ := copy_alike halike (fun x hx => Option.some.inj hx ▸ hchr) hrun
    refine ⟨_, e, hrun, ⟨rfl, rfl, rfl, rfl, rfl⟩, Block.take_agree fun i hi => (hq.agree.getElem? i hi).symm, fun ops e => ?_⟩
    rcases hq.calls zeroFails ops e with ⟨h, h'⟩ | ⟨outs, outs', e', h, h', rfl⟩
    · rw [h, h']
    · rw [h, h']

/-- "Hi" is copied into an empty binary buffer. -/
theorem copy_meets_iff_hi :
    let src : RawBuf := ⟨.text, 1, 2, 2, 4, .block [some (ch 'H'), some (ch 'i'), some 0, none]⟩
    CopyMeets true (init 2 .binary) src .zero ↔ (init 2 .binary).chrsize = src.chrsize ∧ (init 2 .binary).data ≠ .wild ∧
      src.len < src.size ∧ InInt (((src.len + 1) * src.chrsize : Nat) : Int) := by
  have hput : (init 4 .text).call true (.putstr (txt "Hi" ++ [0])) .zero =
      some (((2, []), ⟨.text, 1, 2, 2, 4, .block [some (ch 'H'), some (ch 'i'), some 0, none]⟩), .zero) := rfl
  exact copy_meets_iff (.call (.init 4 .text) hput) (init 2 .binary) .zero

/-- A wide buffer keeps the size of its characters when an empty text is copied into it. -/
theorem copy_keeps_chrsize : ¬ CopyMeets true (init 64 .textW) (init 64 .text) .zero := by
  rintro ⟨d, e', hrun, ⟨-, hchr, -⟩, -⟩
  obtain ⟨g, hdest, -, hbytes⟩ := copy_inv hrun
  have hd := (copyBytes_inv hbytes).2.2
  rw [hchr] at hd
  exact absurd (hd.trans (copyDest_chrsize hdest).2) (by decide)

end RawBuf
end Pcl
