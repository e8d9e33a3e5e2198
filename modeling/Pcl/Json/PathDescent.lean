import Pcl.Json.PathCompose

/-!
# Recursive descents

A recursive descent is meant to select at every depth of a document. At a matching member the walk stops,
and only a member or an element behind the descent is ever tried.
-/

namespace Pcl

variable {R : Type} {v : Json R} {e : ErrState}

/-! ### Documents -/

mutual

/-- The members and elements of a value at any depth in pre-order, the members with their keys. -/
def Json.entries : Json R → List (Option CStr × Json R)
  | .arr l => Json.elementEntries l
  | .obj m => Json.memberEntries m
  | .null | .bool _ | .int _ | .real _ | .str _ => []

def Json.elementEntries : List (Json R) → List (Option CStr × Json R)
  | [] => []
  | v :: l => (none, v) :: (Json.entries v ++ Json.elementEntries l)

def Json.memberEntries : List (CStr × Json R) → List (Option CStr × Json R)
  | [] => []
  | (k, v) :: m => (some k, v) :: (Json.entries v ++ Json.memberEntries m)

end

namespace Json

theorem entries_arr (l : List (Json R)) : (arr l).entries = l.flatMap fun v => (none, v) :: v.entries := by
  show elementEntries l = _
  induction l with
  | nil => rfl
  | cons v l ih => rw [elementEntries, ih, List.flatMap_cons, List.cons_append]

theorem entries_obj (m : List (CStr × Json R)) :
    (obj m).entries = m.flatMap fun p => (some p.1, p.2) :: p.2.entries := by
  show memberEntries m = _
  induction m with
  | nil => rfl
  | cons p m ih => rw [memberEntries, ih, List.flatMap_cons, List.cons_append]

/-- The values of all members with a name, at any depth, in pre-order. -/
def named (k : CStr) (v : Json R) : List (Json R) := (v.entries.filter fun p => p.1 = some k).map Prod.snd

theorem named_arr (k : CStr) (l : List (Json R)) : named k (arr l) = l.flatMap (named k) := by
  unfold named
  rw [entries_arr, List.filter_flatMap, List.map_flatMap]
  exact List.flatMap_congr fun v _ => rfl

theorem named_obj (k : CStr) (m : List (CStr × Json R)) :
    named k (obj m) = m.flatMap fun p => if p.1 = k then p.2 :: named k p.2 else named k p.2 := by
  unfold named
  rw [entries_obj, List.filter_flatMap, List.map_flatMap]
  refine List.flatMap_congr fun p _ => ?_
  by_cases hk : p.1 = k <;> simp [hk]

/-- The keys of every object in the value are different. -/
inductive Keyed : Json R → Prop
  | null : Keyed null
  | bool (b : Bool) : Keyed (bool b)
  | int (i : Int) : Keyed (int i)
  | real (r : R) : Keyed (real r)
  | str (s : CStr) : Keyed (str s)
  | arr {l : List (Json R)} (hl : ∀ v ∈ l, Keyed v) : Keyed (arr l)
  | obj {m : List (CStr × Json R)} (hd : OMap.Distinct keyEq m) (hm : ∀ p ∈ m, Keyed p.2) : Keyed (obj m)

end Json

/-- A document: a value whose objects hold every key once. -/
structure JsonDoc (R : Type) where
  value : Json R
  keyed : value.Keyed

/-- A name that can stand behind dots: it is not empty, does not start with the wildcard, and no dot or bracket
ends it. -/
structure DottedName where
  name : CStr
  ne : name.bytes ≠ []
  star : name.bytes.headD 0 ≠ ch '*'
  plain : ∀ c ∈ name.bytes, c ≠ ch '.' ∧ c ≠ ch '['

namespace DottedName

/-- The path `$..name`. -/
def descent (k : DottedName) : CStr := dollar ((CStr.lit "..").append k.name)

theorem compileDot_name (k : DottedName) : compileDot k.name.bytes e = some (some (.member k.name, []), e) := by
  obtain ⟨c, s, hs⟩ := List.exists_cons_of_ne_nil k.ne
  have hdot : k.name.bytes.headD 0 ≠ ch '.' := by
    rw [hs]
    exact (k.plain c (hs ▸ List.mem_cons_self)).1
  have hall : k.name.bytes.takeWhile (fun c => decide (c ≠ ch '.' ∧ c ≠ ch '[' ∧ c ≠ 0)) = k.name.bytes := by
    refine List.takeWhile_eq_self_iff.2 fun c hc => decide_eq_true ?_
    obtain ⟨h₁, h₂⟩ := k.plain c hc
    exact ⟨h₁, h₂, fun h0 => k.name.nul_free (h0 ▸ hc)⟩
  have hlen : k.name.bytes.length ≠ 0 := fun h => k.ne (List.eq_nil_of_length_eq_zero h)
  unfold compileDot
  rw [if_neg hdot, if_neg k.star]
  simp only [hall]
  rw [if_neg hlen, List.drop_length]
  have hdup := strndup_name k.ne []
  rw [List.append_nil] at hdup
  rw [hdup]
  rfl

theorem jsonCompile_descent (k : DottedName) (e : ErrState) :
    jsonCompile k.descent e = some (some [.root, .recursiveDescent, .member k.name], e) := by
  have hname : compileNode (ch '.' :: k.name.bytes) e = some (some (.member k.name, []), e) := k.compileDot_name
  exact jsonCompile_dollar (.inl rfl) (.cons rfl (.cons hname .nil))

end DottedName

/-! ### The results -/

/-- Lists that are put together from parts, where each part of the first is a part of the second. -/
theorem flatMap_sublist_iff {α β : Type} {l : List α} {f g : α → List β} (h : ∀ a ∈ l, (f a).Sublist (g a)) :
    (l.flatMap f).Sublist (l.flatMap g) ∧ (l.flatMap f = l.flatMap g ↔ ∀ a ∈ l, f a = g a) := by
  induction l with
  | nil => exact ⟨.refl _, iff_of_true rfl fun a ha => absurd ha List.not_mem_nil⟩
  | cons a l ih =>
    have ha := h a List.mem_cons_self
    obtain ⟨hsub, hiff⟩ := ih fun b hb => h b (List.mem_cons_of_mem a hb)
    rw [List.flatMap_cons, List.flatMap_cons]
    refine ⟨ha.append hsub, fun heq => ?_, fun heq => ?_⟩
    · have hlen := congrArg List.length heq
      rw [List.length_append, List.length_append] at hlen
      have h₁ := ha.length_le
      have h₂ := hsub.length_le
      intro b hb
      rcases List.mem_cons.1 hb with rfl | hb
      · exact ha.eq_of_length (by omega)
      · exact hiff.1 (hsub.eq_of_length (by omega)) b hb
    · rw [heq a List.mem_cons_self, hiff.2 fun b hb => heq b (List.mem_cons_of_mem a hb)]

/-- No member with the name lies inside of the value of another one. -/
def NoneNested (k : CStr) (v : Json R) : Prop :=
  ∀ w, (some k, w) ∈ v.entries → ∀ u, (some k, u) ∉ w.entries

theorem named_eq_nil {k : CStr} : Json.named k v = [] ↔ ∀ u, (some k, u) ∉ v.entries := by
  unfold Json.named
  rw [List.map_eq_nil_iff, List.filter_eq_nil_iff]
  refine ⟨fun h u hu => h _ hu (decide_eq_true rfl), fun h p hp hk => ?_⟩
  obtain ⟨k', u⟩ := p
  have hk : k' = some k := of_decide_eq_true hk
  exact h u (hk ▸ hp)

theorem noneNested_arr {k : CStr} {l : List (Json R)} : NoneNested k (.arr l) ↔ ∀ v ∈ l, NoneNested k v := by
  unfold NoneNested
  rw [Json.entries_arr]
  simp only [List.mem_flatMap, List.mem_cons]
  constructor
  · exact fun h v hv w hw => h w ⟨v, hv, .inr hw⟩
  · rintro h w ⟨v, hv, heq | hw⟩
    · cases heq
    · exact h v hv w hw

theorem noneNested_obj {k : CStr} {m : List (CStr × Json R)} : NoneNested k (.obj m) ↔
    ∀ p ∈ m, if p.1 = k then Json.named k p.2 = [] else NoneNested k p.2 := by
  unfold NoneNested
  rw [Json.entries_obj]
  simp only [List.mem_flatMap, List.mem_cons]
  constructor
  · intro h p hp
    split
    · rename_i hk
      exact named_eq_nil.2 (h p.2 ⟨p, hp, .inl (by rw [hk])⟩)
    · exact fun w hw => h w ⟨p, hp, .inr hw⟩
  · rintro h w ⟨p, hp, heq | hw⟩ u
    · injection heq with hk hv
      injection hk with hk
      have hp := h p hp
      rw [if_pos hk.symm, named_eq_nil] at hp
      exact hv ▸ hp u
    · have hp := h p hp
      by_cases hk : p.1 = k
      · rw [if_pos hk, named_eq_nil] at hp
        exact absurd hw (hp w)
      · rw [if_neg hk] at hp
        exact hp w hw u

/-- The descent into an array goes on with every element, unless an element stands behind it. -/
theorem results_descent_arr {next : List PathNode} (h : ∀ i, next.head? ≠ some (.element i)) (l : List (Json R)) :
    results (.recursiveDescent :: next) (.arr l) = l.flatMap (results (.recursiveDescent :: next)) := by
  rw [results_cons, if_neg (show ¬ Mismatch .recursiveDescent _ from id)]
  have hcalls : calls .recursiveDescent next (.arr l) = (l.zipIdx.map Prod.fst).map (.recursiveDescent :: next, ·) := by
    rw [List.map_map]
    exact List.map_congr_left fun p _ => if_neg (h _)
  rw [hcalls, List.flatMap_map, List.zipIdx_map_fst]

theorem results_descent_obj (k : CStr) {m : List (CStr × Json R)} (hd : OMap.Distinct Json.keyEq m) :
    results [.recursiveDescent, .member k] (.obj m) =
      m.flatMap fun p => if p.1 = k then [p.2] else results [.recursiveDescent, .member k] p.2 := by
  rw [results_cons, if_neg (show ¬ Mismatch .recursiveDescent _ from id)]
  have hcalls : calls .recursiveDescent [.member k] (.obj m) = m.map fun p =>
      descend [.member k] (.obj m) (.member p.1) p.2 := rfl
  rw [hcalls, List.flatMap_map]
  refine List.flatMap_congr fun p hp => ?_
  by_cases hk : p.1 = k
  · have hhit : descend [.member k] (.obj m) (.member p.1) p.2 = ([.member k], .obj m) := if_pos (by rw [hk]; rfl)
    have hfind : OMap.find Json.keyEq m k = some p :=
      OMap.find_eq_some Json.keyEq_equiv hd hp (hk ▸ Json.keyEq_equiv.refl p.1)
    rw [hhit, if_pos hk, results_last (by simp), if_neg (show ¬ Mismatch (.member k) _ from id), selects, hfind]
    rfl
  · have hmiss : descend [.member k] (.obj m) (.member p.1) p.2 = ([.recursiveDescent, .member k], p.2) := by
      refine if_neg fun h => hk ?_
      injection h with h
      injection h with h
      exact h.symm
    rw [hmiss, if_neg hk]

theorem results_descent_leaf {next : List PathNode} (h : calls .recursiveDescent next v = []) :
    results (.recursiveDescent :: next) v = [] := by
  rw [results_cons, if_neg (show ¬ Mismatch .recursiveDescent _ from id), h]
  rfl

/-- The descent finds some of the members, and finds them all exactly where none is inside of another one. -/
theorem results_descent (k : CStr) (hv : v.Keyed) :
    (results [.recursiveDescent, .member k] v).Sublist (Json.named k v) ∧
      (results [.recursiveDescent, .member k] v = Json.named k v ↔ NoneNested k v) := by
  have hleaf (v : Json R) (hcalls : calls .recursiveDescent [.member k] v = []) (hent : v.entries = []) :
      (results [.recursiveDescent, .member k] v).Sublist (Json.named k v) ∧
        (results [.recursiveDescent, .member k] v = Json.named k v ↔ NoneNested k v) := by
    have hnamed : Json.named k v = [] := by rw [Json.named, hent]; rfl
    rw [results_descent_leaf hcalls, hnamed]
    refine ⟨.refl _, iff_of_true rfl fun w hw => ?_⟩
    rw [hent] at hw
    exact absurd hw List.not_mem_nil
  induction hv with
  | null => exact hleaf _ rfl rfl
  | bool b => exact hleaf _ rfl rfl
  | int i => exact hleaf _ rfl rfl
  | real r => exact hleaf _ rfl rfl
  | str s => exact hleaf _ rfl rfl
  | @arr l hl ih =>
    rw [results_descent_arr (by simp), Json.named_arr, noneNested_arr]
    obtain ⟨hsub, hiff⟩ := flatMap_sublist_iff fun v hv => (ih v hv).1
    exact ⟨hsub, hiff.trans (forall₂_congr fun v hv => (ih v hv).2)⟩
  | @obj m hd hm ih =>
    rw [results_descent_obj k hd, Json.named_obj, noneNested_obj]
    obtain ⟨hsub, hiff⟩ := flatMap_sublist_iff (l := m)
      (f := fun p => if p.1 = k then [p.2] else results [.recursiveDescent, .member k] p.2)
      (g := fun p => if p.1 = k then p.2 :: Json.named k p.2 else Json.named k p.2) fun p hp => by
        by_cases hk : p.1 = k
        · simp only [hk, ↓reduceIte]
          exact (List.nil_sublist _).cons_cons p.2
        · simp only [hk, ↓reduceIte]
          exact (ih p hp).1
    refine ⟨hsub, hiff.trans (forall₂_congr fun p hp => ?_)⟩
    by_cases hk : p.1 = k
    · simp only [hk, ↓reduceIte, List.cons.injEq, true_and]
      exact eq_comm
    · simp only [hk, ↓reduceIte]
      exact (ih p hp).2

/-- Behind a descent a wildcard is never tried. -/
theorem results_descent_wildcard (v : Json R) : results [.recursiveDescent, .wildcardMember] v = [] := by
  induction v using Json.ind with
  | null => exact results_descent_leaf rfl
  | bool b => exact results_descent_leaf rfl
  | int i => exact results_descent_leaf rfl
  | real r => exact results_descent_leaf rfl
  | str s => exact results_descent_leaf rfl
  | arr l ih =>
    rw [results_descent_arr (by simp), List.flatMap_eq_nil_iff]
    exact ih
  | obj m ih =>
    rw [results_cons, if_neg (show ¬ Mismatch .recursiveDescent _ from id), List.flatMap_eq_nil_iff]
    intro c hc
    obtain ⟨p, hp, rfl⟩ := List.mem_map.1 hc
    have hmiss : descend [.wildcardMember] (.obj m) (.member p.1) p.2 = ([.recursiveDescent, .wildcardMember], p.2) :=
      if_neg (by simp)
    rw [hmiss]
    exact ih p hp

/-- `$..name` answers the values of all members with the name in pre-order. -/
def DescendsTo (k : DottedName) (doc : JsonDoc R) : Prop :=
  Answers k.descent doc.value (· = Json.named k.name doc.value)

/-- `$..*` answers all members and elements. -/
def DescendsAll (doc : JsonDoc R) : Prop :=
  Answers (.lit "$..*") doc.value fun res => res.Perm (doc.value.entries.map Prod.snd)

/-- A recursive descent to a name selects what it is meant to exactly where no member with the name is inside of
the value of another one; to a wildcard, exactly where the document has no members and no elements. -/
theorem jsonMatch_descent_iff (k : DottedName) (doc : JsonDoc R) :
    (DescendsTo k doc ↔ NoneNested k.name doc.value) ∧ (DescendsAll doc ↔ doc.value.entries = []) := by
  have hwild (e : ErrState) : jsonCompile (.lit "$..*") e = some (some [.root, .recursiveDescent, .wildcardMember], e) := rfl
  constructor
  · rw [DescendsTo, answers_iff k.jsonCompile_descent (by simp), results_root]
    exact (results_descent k.name doc.keyed).2
  · rw [DescendsAll, answers_iff hwild (by simp), results_root, results_descent_wildcard, List.nil_perm,
      List.map_eq_nil_iff]

/-- In an object inside of an object the inner member is missed, and the wildcard misses both. -/
theorem jsonMatch_descent_misses : ∃ (k : DottedName) (doc : JsonDoc Nat),
    k.name = .lit "a" ∧ doc.value = .obj [(.lit "a", .obj [(.lit "a", .int 1)])] ∧
      ¬ DescendsTo k doc ∧ ¬ DescendsAll doc := by
  have hkeyed : (Json.obj [(.lit "a", .obj [(.lit "a", .int 1)])] : Json Nat).Keyed := by
    refine .obj (List.pairwise_singleton _ _) fun p hp => ?_
    rw [List.mem_singleton.1 hp]
    refine .obj (List.pairwise_singleton _ _) fun q hq => ?_
    rw [List.mem_singleton.1 hq]
    exact .int 1
  have hnest (n : CStr) : ¬ NoneNested n (.obj [(n, .obj [(n, .int 1)])] : Json Nat) := fun h =>
    h (.obj [(n, .int 1)]) List.mem_cons_self (.int 1) List.mem_cons_self
  have hplain (c : UInt8) (hc : c ∈ (CStr.lit "a").bytes) : c ≠ ch '.' ∧ c ≠ ch '[' := by
    have hbytes : (CStr.lit "a").bytes = [ch 'a'] := by decide
    rw [hbytes] at hc
    rw [List.mem_singleton.1 hc]
    decide
  refine ⟨⟨.lit "a", by decide, by decide, hplain⟩, ⟨_, hkeyed⟩, rfl, rfl, fun h => ?_, fun h => ?_⟩
  · rw [DescendsTo, answers_iff (DottedName.jsonCompile_descent _) (by simp), results_root,
      (results_descent _ hkeyed).2] at h
    exact hnest _ h
  · have hwild (e : ErrState) : jsonCompile (.lit "$..*") e =
        some (some [.root, .recursiveDescent, .wildcardMember], e) := rfl
    rw [DescendsAll, answers_iff hwild (by simp), results_root, results_descent_wildcard, List.nil_perm] at h
    cases h

end Pcl
