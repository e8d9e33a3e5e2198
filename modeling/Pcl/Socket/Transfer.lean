import Pcl.ErrState

/-!
# Whole transfers

`pcl_sendall` and `pcl_recvall` of `src/socket` on Unix. What `pcl_send` and `pcl_recv` do is given: a list of
results, each with what the call leaves in the error state. The loops end on a comparison of the low 32 bits of
the total and the count, so a total can pass for the count before it is reached.
-/

namespace Pcl

/-- What a call of `pcl_send` or `pcl_recv` returns and does to the error state. -/
structure IoResult where
  ret : Int
  err : ErrState → ErrState

/-- A call made of it: the offset from the start of the data, the requested size and the result. -/
structure IoCall where
  offset : Int
  size : Nat
  ret : Int
deriving DecidableEq

namespace Transfer

/-- The loop of both functions at a total `tot`. `fail` says which results end it and with what error. It does not
return while the results do not suffice. -/
def loop (fail : Int → Option (ErrM Int)) (count : Nat) : List IoResult → Int → ErrM (Bool × List IoCall)
  | [], _ => ErrM.undef
  | res :: rest, tot => fun e =>
    -- the size is computed as a `size_t`
    let call : IoCall := ⟨tot, ((count - tot) % 2 ^ 64).toNat, res.ret⟩
    let e := res.err e
    match fail res.ret with
    | some trace => (trace e).map fun p => ((false, [call]), p.2)
    | none =>
      let tot := tot + res.ret
      -- both are cast to `unsigned`
      if tot % 2 ^ 32 < (count : Int) % 2 ^ 32 then
        (loop fail count rest tot e).map fun p => ((p.1.1, call :: p.1.2), p.2)
      else some ((true, [call]), e)

end Transfer

/-- `PCL_ECONNRESET`. -/
def eConnreset : Int := 205

/-- The results that make `pcl_sendall` fail. -/
def sendFails (r : Int) : Option (ErrM Int) :=
  if r = -1 then some (trc (loc "sendall.c" "pcl_sendall" 51)) else none

/-- The results that make `pcl_recvall` fail. -/
def recvFails (r : Int) : Option (ErrM Int) :=
  if r = -1 then some (trc (loc "recvall.c" "pcl_recvall" 52))
  -- connect reset before receiving "all" requested bytes
  else if r = 0 then some (setErr (loc "recvall.c" "pcl_recvall" 62) eConnreset)
  else none

/-- `pcl_sendall`: the result and the calls it made. -/
def sendall (count : Nat) (results : List IoResult) : ErrM (Bool × List IoCall) := Transfer.loop sendFails count results 0

/-- `pcl_recvall`. -/
def recvall (count : Nat) (results : List IoResult) : ErrM (Bool × List IoCall) := Transfer.loop recvFails count results 0

namespace Transfer

/-- The bytes that some results stand for. -/
def total (rets : List Int) : Nat := (rets.map Int.toNat).sum

/-- No call returned more than was requested. -/
def Honest (calls : List IoCall) : Prop := ∀ c ∈ calls, c.ret = -1 ∨ 0 ≤ c.ret ∧ c.ret ≤ c.size

/-- Each call continues at the first byte that was not transferred and requests what remains. -/
def Continues (count : Nat) (calls : List IoCall) : Prop :=
  ∀ pre c post, calls = pre ++ c :: post →
    c.offset = ((total (pre.map IoCall.ret) : Nat) : Int) ∧ c.size = count - total (pre.map IoCall.ret)

/-- Success is reported exactly for a whole transfer. -/
def Exact (count : Nat) (ok : Bool) (calls : List IoCall) : Prop :=
  (ok = true ↔ total (calls.map IoCall.ret) = count) ∧ Continues count calls

/-- The first results that do not end the loop add up to less than the count, but not modulo `2 ^ 32`. -/
def FallsShort (fail : Int → Option (ErrM Int)) (count : Nat) (results : List IoResult) : Prop :=
  ∃ pre, pre <+: results.map IoResult.ret ∧ (∀ r ∈ pre, (fail r).isNone) ∧ pre ≠ [] ∧ total pre < count ∧
    count % 2 ^ 32 ≤ total pre % 2 ^ 32

theorem total_cons (r : Int) (l : List Int) : total (r :: l) = r.toNat + total l := by
  unfold total
  rw [List.map_cons, List.sum_cons]

theorem Continues.single {t count : Nat} (r : Int) (pre : List IoCall) (c : IoCall) (post : List IoCall)
    (h : [⟨t, count - t, r⟩] = pre ++ c :: post) :
    c.offset = ((t + total (pre.map IoCall.ret) : Nat) : Int) ∧ c.size = count - (t + total (pre.map IoCall.ret)) := by
  cases pre with
  | nil =>
    cases h
    exact ⟨rfl, rfl⟩
  | cons a pre => simp at h

variable {fail : Int → Option (ErrM Int)}

/-- An error ends the loop, and what ends it transfers nothing. -/
structure Proper (fail : Int → Option (ErrM Int)) : Prop where
  error : (fail (-1)).isSome
  nothing : ∀ r, (fail r).isSome → r ≤ 0

/-- One turn of the loop: it fails, it goes on, or it ends. -/
theorem loop_cases {count : Nat} {res : IoResult} {results : List IoResult} {tot : Int} {e e' : ErrState} {ok : Bool}
    {calls : List IoCall} (h : loop fail count (res :: results) tot e = some ((ok, calls), e')) :
    ((fail res.ret).isSome ∧ ok = false ∧ calls = [⟨tot, ((count - tot) % 2 ^ 64).toNat, res.ret⟩]) ∨
    ((fail res.ret).isNone ∧ (tot + res.ret) % 2 ^ 32 < (count : Int) % 2 ^ 32 ∧
      ∃ calls', loop fail count results (tot + res.ret) (res.err e) = some ((ok, calls'), e') ∧
        calls = ⟨tot, ((count - tot) % 2 ^ 64).toNat, res.ret⟩ :: calls') ∨
    ((fail res.ret).isNone ∧ (count : Int) % 2 ^ 32 ≤ (tot + res.ret) % 2 ^ 32 ∧ ok = true ∧
      calls = [⟨tot, ((count - tot) % 2 ^ 64).toNat, res.ret⟩]) := by
  unfold loop at h
  simp only at h
  cases hres : fail res.ret with
  | some trace =>
    rw [hres] at h
    obtain ⟨p, -, heq⟩ := Option.map_eq_some_iff.1 h
    cases heq
    exact .inl ⟨rfl, rfl, rfl⟩
  | none =>
    rw [hres] at h
    simp only at h
    split at h
    · rename_i hlt
      obtain ⟨⟨⟨ok', calls'⟩, e₁⟩, hrest, heq⟩ := Option.map_eq_some_iff.1 h
      cases heq
      exact .inr (.inl ⟨rfl, hlt, calls', hrest, rfl⟩)
    · rename_i hge
      cases h
      exact .inr (.inr ⟨rfl, Int.not_lt.1 hge, rfl, rfl⟩)

theorem size_eq {count t : Nat} (hcount : count < 2 ^ 63) (ht : t ≤ count) :
    (((count : Int) - t) % 2 ^ 64).toNat = count - t := by
  omega

/-- A call that is no error returns at most what remained. -/
theorem Honest.returned {calls : List IoCall} (hhonest : Honest calls) (hfail : Proper fail) {count t : Nat} {r : Int}
    (ht : t ≤ count) (hgo : (fail r).isNone) (h : (⟨t, count - t, r⟩ : IoCall) ∈ calls) :
    t + r = ((t + r.toNat : Nat) : Int) ∧ t + r.toNat ≤ count := by
  rcases hhonest _ h with rfl | ⟨h₁, h₂⟩
  · have herror := hfail.error
    rw [Option.isNone_iff_eq_none.1 hgo] at herror
    cases herror
  · simp only at h₁ h₂
    omega

theorem loop_continues (hfail : Proper fail) {count t : Nat} (hcount : count < 2 ^ 63) (ht : t ≤ count)
    {results : List IoResult} {e e' : ErrState} {ok : Bool} {calls : List IoCall}
    (hrun : loop fail count results t e = some ((ok, calls), e')) (hhonest : Honest calls) :
    ∀ pre c post, calls = pre ++ c :: post →
      c.offset = ((t + total (pre.map IoCall.ret) : Nat) : Int) ∧
        c.size = count - (t + total (pre.map IoCall.ret)) := by
  induction results generalizing t e calls with
  | nil => cases hrun
  | cons res results ih =>
    have hcases := loop_cases hrun
    rw [size_eq hcount ht] at hcases
    rcases hcases with ⟨-, -, rfl⟩ | ⟨hgo, -, calls', hrest, rfl⟩ | ⟨-, -, -, rfl⟩
    · exact Continues.single res.ret
    · obtain ⟨htot, hle⟩ := hhonest.returned hfail ht hgo List.mem_cons_self
      rw [htot] at hrest
      intro pre c post h
      cases pre with
      | nil =>
        cases h
        exact ⟨rfl, rfl⟩
      | cons a pre =>
        obtain ⟨rfl, hcalls⟩ := List.cons.inj h
        have hc := ih hle hrest (fun c hc => hhonest c (List.mem_cons_of_mem _ hc)) pre c post hcalls
        rw [List.map_cons, total_cons, ← Nat.add_assoc]
        exact hc
    · exact Continues.single res.ret

/-- `FallsShort` where `t` bytes were transferred before. -/
def ShortFrom (fail : Int → Option (ErrM Int)) (count t : Nat) (rets : List Int) : Prop :=
  ∃ pre, pre <+: rets ∧ (∀ r ∈ pre, (fail r).isNone) ∧ pre ≠ [] ∧ t + total pre < count ∧
    count % 2 ^ 32 ≤ (t + total pre) % 2 ^ 32

section
variable {count t : Nat} {r : Int} {rets : List Int}

theorem shortFrom_cons (hgo : (fail r).isNone) : ShortFrom fail count t (r :: rets) ↔
    (t + r.toNat < count ∧ count % 2 ^ 32 ≤ (t + r.toNat) % 2 ^ 32) ∨ ShortFrom fail count (t + r.toNat) rets := by
  constructor
  · rintro ⟨pre, hpre, hgoes, hnil, hlt, hmod⟩
    cases pre with
    | nil => exact absurd rfl hnil
    | cons r' pre =>
      obtain ⟨rfl, hrest⟩ := List.cons_prefix_cons.1 hpre
      rw [total_cons, ← Nat.add_assoc] at hlt hmod
      cases pre with
      | nil => exact .inl ⟨hlt, hmod⟩
      | cons r'' pre =>
        exact .inr ⟨r'' :: pre, hrest, fun x hx => hgoes x (List.mem_cons_of_mem _ hx), List.cons_ne_nil _ _, hlt, hmod⟩
  · rintro (⟨hlt, hmod⟩ | ⟨pre, hpre, hgoes, -, hlt, hmod⟩)
    · refine ⟨[r], ⟨rets, rfl⟩, fun x hx => ?_, List.cons_ne_nil _ _, hlt, hmod⟩
      rwa [List.mem_singleton.1 hx]
    · refine ⟨r :: pre, List.cons_prefix_cons.2 ⟨rfl, hpre⟩, ?_, List.cons_ne_nil _ _, ?_, ?_⟩
      · intro x hx
        rcases List.mem_cons.1 hx with rfl | hx
        · exact hgo
        · exact hgoes x hx
      · rwa [total_cons, ← Nat.add_assoc]
      · rwa [total_cons, ← Nat.add_assoc]

theorem not_shortFrom_failed (h : (fail r).isSome) : ¬ ShortFrom fail count t (r :: rets) := by
  rintro ⟨pre, hpre, hgoes, hne, -⟩
  cases pre with
  | nil => exact hne rfl
  | cons r' pre =>
    obtain ⟨rfl, -⟩ := List.cons_prefix_cons.1 hpre
    have hgo := hgoes r' List.mem_cons_self
    rw [Option.isNone_iff_eq_none.1 hgo] at h
    cases h

theorem ShortFrom.lt (h : ShortFrom fail count t rets) : t < count := by
  obtain ⟨pre, -, -, -, hlt, -⟩ := h
  omega

end

/-- The result is right unless a total falls short. -/
theorem loop_result (hfail : Proper fail) {count t : Nat} (hcount : count < 2 ^ 63) (ht : t ≤ count)
    {results : List IoResult} {e e' : ErrState} {ok : Bool} {calls : List IoCall}
    (hrun : loop fail count results t e = some ((ok, calls), e')) (hhonest : Honest calls) :
    (ok = true ↔ t + total (calls.map IoCall.ret) = count) ↔
      ¬ ShortFrom fail count t (results.map IoResult.ret) ∧
      (t = count → ∀ res ∈ results.head?, (fail res.ret).isNone) := by
  induction results generalizing t e calls with
  | nil => cases hrun
  | cons res results ih =>
    have hcases := loop_cases hrun
    rw [size_eq hcount ht] at hcases
    have hhead (hgo : (fail res.ret).isNone) : ∀ x ∈ (res :: results).head?, (fail x.ret).isNone := by
      intro x hx
      cases hx
      exact hgo
    rw [List.map_cons]
    rcases hcases with ⟨herr, rfl, rfl⟩ | ⟨hgo, hlt, calls', hrest, rfl⟩ | ⟨hgo, hge, rfl, rfl⟩
    · have hnone := hfail.nothing res.ret herr
      have htotal : total ([(⟨t, count - t, res.ret⟩ : IoCall)].map IoCall.ret) = 0 := by
        rw [List.map_singleton, total_cons]
        show res.ret.toNat + 0 = 0
        omega
      rw [htotal]
      constructor
      · intro hiff
        refine ⟨not_shortFrom_failed herr, fun heq => ?_⟩
        cases hiff.2 heq
      · rintro ⟨-, hgoes⟩
        refine ⟨fun h => Bool.noConfusion h, fun heq => ?_⟩
        have hgo := hgoes heq res rfl
        rw [Option.isNone_iff_eq_none.1 hgo] at herr
        cases herr
    · obtain ⟨htot, hle⟩ := hhonest.returned hfail ht hgo List.mem_cons_self
      rw [htot] at hlt hrest
      have hlow : (t + res.ret.toNat) % 2 ^ 32 < count % 2 ^ 32 := by omega
      have hne : t + res.ret.toNat ≠ count := fun heq => by rw [heq] at hlow; omega
      have hiff := ih hle hrest fun c hc => hhonest c (List.mem_cons_of_mem _ hc)
      have htotal : t + total ((⟨t, count - t, res.ret⟩ :: calls').map IoCall.ret) =
          t + res.ret.toNat + total (calls'.map IoCall.ret) := by
        rw [List.map_cons, total_cons, Nat.add_assoc]
      rw [htotal, hiff, shortFrom_cons hgo]
      constructor
      · rintro ⟨hshort, -⟩
        refine ⟨?_, fun _ => hhead hgo⟩
        rintro (⟨-, hmod⟩ | h)
        · exact absurd hlow (Nat.not_lt.2 hmod)
        · exact hshort h
      · rintro ⟨hshort, -⟩
        exact ⟨fun h => hshort (.inr h), fun heq => absurd heq hne⟩
    · obtain ⟨htot, hle⟩ := hhonest.returned hfail ht hgo (List.mem_singleton.2 rfl)
      rw [htot] at hge
      have hhigh : count % 2 ^ 32 ≤ (t + res.ret.toNat) % 2 ^ 32 := by omega
      have htotal : t + total ([(⟨t, count - t, res.ret⟩ : IoCall)].map IoCall.ret) = t + res.ret.toNat := by
        rw [List.map_singleton, total_cons]
        rfl
      rw [htotal, shortFrom_cons hgo]
      constructor
      · intro hiff
        have heq := hiff.1 rfl
        refine ⟨?_, fun _ => hhead hgo⟩
        rintro (⟨hlt, -⟩ | h)
        · omega
        · exact absurd heq (Nat.ne_of_lt h.lt)
      · rintro ⟨hshort, -⟩
        refine ⟨fun _ => ?_, fun _ => rfl⟩
        rcases Nat.lt_or_eq_of_le hle with hlt | heq
        · exact absurd (.inl ⟨hlt, hhigh⟩) hshort
        · exact heq

theorem loop_head {count : Nat} {results : List IoResult} {t : Int} {e e' : ErrState} {ok : Bool} {calls : List IoCall}
    (hrun : loop fail count results t e = some ((ok, calls), e')) :
    ∃ res, results.head? = some res ∧ (⟨t, ((count - t) % 2 ^ 64).toNat, res.ret⟩ : IoCall) ∈ calls := by
  cases results with
  | nil => cases hrun
  | cons res results =>
    refine ⟨res, rfl, ?_⟩
    rcases loop_cases hrun with ⟨-, -, rfl⟩ | ⟨-, -, calls', -, rfl⟩ | ⟨-, -, -, rfl⟩ <;> exact List.mem_cons_self

theorem exact_iff (hfail : Proper fail) {count : Nat} (hcount : count < 2 ^ 63) {results : List IoResult}
    {e e' : ErrState} {ok : Bool} {calls : List IoCall} (hrun : loop fail count results 0 e = some ((ok, calls), e'))
    (hhonest : Honest calls) :
    Exact count ok calls ↔
      ¬ FallsShort fail count results ∧ (count = 0 → ∀ res ∈ results.head?, (fail res.ret).isNone) := by
  have hpos := loop_continues (t := 0) hfail hcount (Nat.zero_le _) hrun hhonest
  have hiff := loop_result (t := 0) hfail hcount (Nat.zero_le _) hrun hhonest
  unfold ShortFrom at hiff
  simp only [Nat.zero_add] at hpos hiff
  unfold FallsShort
  rw [eq_comm (a := count), ← hiff]
  exact ⟨fun h => h.1, fun h => ⟨h, hpos⟩⟩

end Transfer

theorem sendFails_proper : Transfer.Proper sendFails where
  error := rfl
  nothing r h := by
    unfold sendFails at h
    split at h
    · omega
    · cases h

theorem recvFails_proper : Transfer.Proper recvFails where
  error := rfl
  nothing r h := by
    unfold recvFails at h
    split at h
    · omega
    · split at h
      · omega
      · cases h

variable {count : Nat} {results : List IoResult} {e e' : ErrState} {ok : Bool} {calls : List IoCall}

theorem sendall_exact_iff (hcount : count < 2 ^ 63) (hhonest : Transfer.Honest calls)
    (hrun : sendall count results e = some ((ok, calls), e')) :
    Transfer.Exact count ok calls ↔ ¬ Transfer.FallsShort sendFails count results ∧
      (count = 0 → ∀ res ∈ results.head?, res.ret ≠ -1) := by
  have hgoes (r : Int) : (sendFails r).isNone ↔ r ≠ -1 := by
    unfold sendFails
    split <;> simp_all
  rw [Transfer.exact_iff sendFails_proper hcount hrun hhonest]
  simp only [hgoes]

theorem recvall_exact_iff (hcount : count < 2 ^ 63) (hhonest : Transfer.Honest calls)
    (hrun : recvall count results e = some ((ok, calls), e')) :
    Transfer.Exact count ok calls ↔ ¬ Transfer.FallsShort recvFails count results ∧ count ≠ 0 := by
  rw [Transfer.exact_iff recvFails_proper hcount hrun hhonest]
  refine and_congr_right fun _ => ⟨fun h hzero => ?_, fun h hzero => absurd hzero h⟩
  obtain ⟨res, hhead, hmem⟩ := Transfer.loop_head hrun
  have hgo := h hzero res hhead
  -- nothing can be received when nothing is requested
  have hret : res.ret = -1 ∨ res.ret = 0 := by
    rcases hhonest _ hmem with h | ⟨h₁, h₂⟩
    · exact .inl h
    · subst hzero
      exact .inr (Int.le_antisymm h₂ h₁)
  rcases hret with hret | hret <;> rw [hret] at hgo <;> cases hgo

/-- A transfer that returns has moved what it reports exactly if no total falls short of the count without its low 32
bits doing so, and it is none of zero bytes that `pcl_send` fails or that `pcl_recvall` was asked for. -/
theorem transfer_exact_iff (hcount : count < 2 ^ 63) (hhonest : Transfer.Honest calls) :
    (sendall count results e = some ((ok, calls), e') →
      (Transfer.Exact count ok calls ↔ ¬ Transfer.FallsShort sendFails count results ∧
        (count = 0 → ∀ res ∈ results.head?, res.ret ≠ -1))) ∧
    (recvall count results e = some ((ok, calls), e') →
      (Transfer.Exact count ok calls ↔ ¬ Transfer.FallsShort recvFails count results ∧ count ≠ 0)) :=
  ⟨sendall_exact_iff hcount hhonest, recvall_exact_iff hcount hhonest⟩

/-- Three bytes in two parts. -/
theorem transfer_exact_iff_three :
    (Transfer.Exact 3 true [⟨0, 3, 2⟩, ⟨2, 1, 1⟩] ↔
      ¬ Transfer.FallsShort sendFails 3 [⟨2, id⟩, ⟨1, id⟩] ∧
        (3 = 0 → ∀ res ∈ [(⟨2, id⟩ : IoResult), ⟨1, id⟩].head?, res.ret ≠ -1)) ∧
    (Transfer.Exact 3 true [⟨0, 3, 2⟩, ⟨2, 1, 1⟩] ↔
      ¬ Transfer.FallsShort recvFails 3 [⟨2, id⟩, ⟨1, id⟩] ∧ 3 ≠ 0) := by
  have hhonest : Transfer.Honest [⟨0, 3, 2⟩, ⟨2, 1, 1⟩] := by
    unfold Transfer.Honest
    decide
  have hiff := @transfer_exact_iff 3 [⟨2, id⟩, ⟨1, id⟩] .zero .zero true _ (by decide) hhonest
  exact ⟨hiff.1 rfl, hiff.2 rfl⟩

/-- Three bytes pass for `2 ^ 32 + 2`, and receiving nothing fails. -/
theorem transfer_not_exact :
    sendall (2 ^ 32 + 2) [⟨3, id⟩] .zero = some ((true, [⟨0, 2 ^ 32 + 2, 3⟩]), .zero) ∧
    recvall (2 ^ 32 + 2) [⟨3, id⟩] .zero = some ((true, [⟨0, 2 ^ 32 + 2, 3⟩]), .zero) ∧
    ¬ Transfer.Exact (2 ^ 32 + 2) true [⟨0, 2 ^ 32 + 2, 3⟩] ∧
    (∃ e, recvall 0 [⟨0, id⟩] .zero = some ((false, [⟨0, 0, 0⟩]), e)) ∧ ¬ Transfer.Exact 0 false [⟨0, 0, 0⟩] := by
  refine ⟨rfl, rfl, fun h => ?_, ⟨_, rfl⟩, fun h => ?_⟩
  · exact absurd (h.1.1 rfl) (by decide)
  · exact absurd (h.1.2 rfl) (by decide)

end Pcl
