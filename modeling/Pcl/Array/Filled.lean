import Pcl.Array.Ops

/-!
# Arrays that are only appended to

`strsplit_impl` and `pcl_proc_parsecmd` start from `pcl_array(4, pcl_cleanup_ptr)` and append strings to it. Its capacity
is doubled up to 2^30, the last one whose double is no `int`; a pointer behind that many has no defined result.
-/

namespace Pcl

/-- The capacity is 4, doubled a number of times. -/
structure Filled (arr : PArray CStr) (l : List (Option CStr)) : Prop where
  refines : ∃ t, arr.Refines t true ∧ t.list = l
  capacity : ∃ k ≤ 28, arr.capacity = 4 * 2 ^ k

namespace Filled
variable {arr arr' : PArray CStr} {l : List (Option CStr)}

theorem new : Filled (.new 4 true) [] := ⟨⟨_, .new 4 true, rfl⟩, 0, Nat.zero_le _, rfl⟩

theorem length_le (h : Filled arr l) : l.length ≤ 2 ^ 30 := by
  obtain ⟨⟨t, href, rfl⟩, k, hk, hcap⟩ := h
  have hpow : 2 ^ k ≤ 2 ^ 28 := Nat.pow_le_pow_right (by decide) hk
  have hle := t.length_le
  rw [← href.capacity_eq] at hle
  omega

/-- The capacity grows by doubling, up to the last power of 2 that is an `int`. -/
theorem append (h : Filled arr l) (elem : Option CStr) (hroom : l.length < 2 ^ 30) (e : ErrState) :
    ∃ arr', arr.insertExec elem arr.count e = some (((l.length : Int) + 1, arr', []), e) ∧ Filled arr' (l ++ [elem]) := by
  obtain ⟨⟨t, href, rfl⟩, k, hk, hcap⟩ := h
  have hcount := href.count_eq
  have hgrows : GrowsInInt arr.count arr.capacity := by
    intro hfull
    unfold intMax
    omega
  obtain ⟨arr', hins, href'⟩ := href.insert elem (Nat.le_refl _) e
  refine ⟨arr', ?_, ⟨_, href', ?_⟩, ?_⟩
  · unfold PArray.insertExec
    rw [if_pos hgrows, hcount, hins]
  · show t.list.take t.list.length ++ elem :: t.list.drop t.list.length = _
    rw [List.take_length, List.drop_length]
  · rw [href'.capacity_eq]
    show ∃ k ≤ 28, t.nextCapacity = 4 * 2 ^ k
    rw [href.capacity_eq] at hcap
    by_cases hfull : t.list.length = t.capacity
    · have hlt : k < 28 := by
        rcases Nat.lt_or_eq_of_le hk with hlt | rfl
        · exact hlt
        · omega
      refine ⟨k + 1, hlt, ?_⟩
      rw [CapList.nextCapacity_full hfull, if_pos (by have := Nat.two_pow_pos k; omega), hcap, Nat.pow_succ, Nat.mul_assoc]
    · exact ⟨k, hk, (CapList.nextCapacity_room hfull).trans hcap⟩

/-- One more pointer would need a capacity that is no `int`. -/
theorem append_full (h : Filled arr l) (elem : Option CStr) (hfull : ¬ l.length < 2 ^ 30) :
    arr.insertExec elem arr.count = ErrM.undef := by
  obtain ⟨⟨t, href, rfl⟩, k, hk, hcap⟩ := h
  have hcount := href.count_eq
  have hle := t.length_le
  rw [← href.capacity_eq] at hle
  have hpow : 2 ^ k ≤ 2 ^ 28 := Nat.pow_le_pow_right (by decide) hk
  refine if_neg fun hgrows => ?_
  have := hgrows (by omega)
  unfold intMax at this
  omega

/-- What an append gives where it gives anything. -/
theorem append_some (h : Filled arr l) {elem : Option CStr} {r : Int} {log : List (Option CStr)} {e e' : ErrState}
    (hrun : arr.insertExec elem arr.count e = some ((r, arr', log), e')) : e' = e ∧ Filled arr' (l ++ [elem]) := by
  by_cases hroom : l.length < 2 ^ 30
  · obtain ⟨arr₁, hrun₁, h₁⟩ := h.append elem hroom e
    rw [hrun₁] at hrun
    cases hrun
    exact ⟨rfl, h₁⟩
  · rw [h.append_full elem hroom] at hrun
    cases hrun

/-- The pointers of the array, none of them `NULL`. -/
theorem list_eq (h : Filled arr l) : arr.list = l := by
  obtain ⟨⟨t, href, rfl⟩, -⟩ := h
  unfold PArray.list
  rw [href.elements_eq, href.count_eq, List.take_left' rfl]

end Filled
end Pcl
