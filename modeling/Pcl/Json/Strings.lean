import Pcl.Json.Value

/-!
# The strings of a value

Its strings and keys, the value with other strings in their place, and equality of values up to the
order of the members.
-/

namespace Pcl

variable {R : Type}

mutual

/-- The value with other strings and keys. -/
def Json.mapStr (f : CStr → CStr) : Json R → Json R
  | .str s => .str (f s)
  | .arr l => .arr (Json.mapElements f l)
  | .obj m => .obj (Json.mapMembers f m)
  | .null => .null
  | .bool b => .bool b
  | .int i => .int i
  | .real r => .real r

def Json.mapElements (f : CStr → CStr) : List (Json R) → List (Json R)
  | [] => []
  | v :: l => Json.mapStr f v :: Json.mapElements f l

def Json.mapMembers (f : CStr → CStr) : List (CStr × Json R) → List (CStr × Json R)
  | [] => []
  | (k, v) :: m => (f k, Json.mapStr f v) :: Json.mapMembers f m

end

mutual

/-- The strings and keys of a value. -/
def Json.strings : Json R → List CStr
  | .str s => [s]
  | .arr l => Json.elementStrings l
  | .obj m => Json.memberStrings m
  | .null | .bool _ | .int _ | .real _ => []

def Json.elementStrings : List (Json R) → List CStr
  | [] => []
  | v :: l => Json.strings v ++ Json.elementStrings l

def Json.memberStrings : List (CStr × Json R) → List CStr
  | [] => []
  | (k, v) :: m => k :: (Json.strings v ++ Json.memberStrings m)

end

namespace Json

theorem strings_element {v : Json R} {l : List (Json R)} (hv : v ∈ l) : v.strings ⊆ elementStrings l := by
  induction l with
  | nil => cases hv
  | cons u l ih =>
    intro s hs
    rcases List.mem_cons.1 hv with rfl | hv
    · exact List.mem_append_left _ hs
    · exact List.mem_append_right _ (ih hv hs)

theorem strings_member {p : CStr × Json R} {m : List (CStr × Json R)} (hp : p ∈ m) :
    p.1 ∈ memberStrings m ∧ p.2.strings ⊆ memberStrings m := by
  induction m with
  | nil => cases hp
  | cons q m ih =>
    obtain ⟨k, v⟩ := q
    rcases List.mem_cons.1 hp with rfl | hp
    · exact ⟨List.mem_cons_self, fun s hs => List.mem_cons_of_mem _ (List.mem_append_left _ hs)⟩
    · obtain ⟨hk, hv⟩ := ih hp
      exact ⟨List.mem_cons_of_mem _ (List.mem_append_right _ hk),
        fun s hs => List.mem_cons_of_mem _ (List.mem_append_right _ (hv hs))⟩

theorem mem_elementStrings {s : CStr} {l : List (Json R)} (hs : s ∈ elementStrings l) : ∃ v ∈ l, s ∈ v.strings := by
  induction l with
  | nil => cases hs
  | cons v l ih =>
    rcases List.mem_append.1 hs with hs | hs
    · exact ⟨v, List.mem_cons_self, hs⟩
    · obtain ⟨u, hu, hs⟩ := ih hs
      exact ⟨u, List.mem_cons_of_mem v hu, hs⟩

theorem mem_memberStrings {s : CStr} {m : List (CStr × Json R)} (hs : s ∈ memberStrings m) :
    ∃ p ∈ m, s = p.1 ∨ s ∈ p.2.strings := by
  induction m with
  | nil => cases hs
  | cons p m ih =>
    obtain ⟨k, v⟩ := p
    rcases List.mem_cons.1 hs with rfl | hs
    · exact ⟨_, List.mem_cons_self, .inl rfl⟩
    rcases List.mem_append.1 hs with hs | hs
    · exact ⟨_, List.mem_cons_self, .inr hs⟩
    · obtain ⟨q, hq, hs⟩ := ih hs
      exact ⟨q, List.mem_cons_of_mem _ hq, hs⟩

theorem mapElements_eq (f : CStr → CStr) (l : List (Json R)) : mapElements f l = l.map (mapStr f) := by
  induction l with
  | nil => rfl
  | cons v l ih => rw [mapElements, ih, List.map_cons]

theorem mapMembers_eq (f : CStr → CStr) (m : List (CStr × Json R)) :
    mapMembers f m = m.map fun p => (f p.1, mapStr f p.2) := by
  induction m with
  | nil => rfl
  | cons p m ih => rw [mapMembers, ih, List.map_cons]

theorem mapStr_id {f : CStr → CStr} {v : Json R} (hf : ∀ s ∈ v.strings, f s = s) : mapStr f v = v := by
  induction v using Json.ind with
  | null => rfl
  | bool b => rfl
  | int i => rfl
  | real r => rfl
  | str s => rw [mapStr, hf s (List.mem_singleton_self s)]
  | arr l ih =>
    have hl : l.map (mapStr f) = l.map id :=
      List.map_congr_left fun v hv => ih v hv fun s hs => hf s (strings_element hv hs)
    rw [mapStr, mapElements_eq, hl, List.map_id]
  | obj m ih =>
    have hm : (m.map fun p => (f p.1, mapStr f p.2)) = m.map id :=
      List.map_congr_left fun p hp => by
        obtain ⟨hk, hv⟩ := strings_member hp
        rw [hf p.1 hk, ih p hp fun s hs => hf s (hv hs)]
        rfl
    rw [mapStr, mapMembers_eq, hm, List.map_id]

theorem strings_mapStr (f : CStr → CStr) (v : Json R) : (mapStr f v).strings = v.strings.map f := by
  induction v using Json.ind with
  | null => rfl
  | bool b => rfl
  | int i => rfl
  | real r => rfl
  | str s => rfl
  | arr l ih =>
    show elementStrings (mapElements f l) = (elementStrings l).map f
    induction l with
    | nil => rfl
    | cons v l ihl =>
      have hl := ihl fun u hu => ih u (List.mem_cons_of_mem v hu)
      rw [mapElements, elementStrings, elementStrings, List.map_append, hl, ih v List.mem_cons_self]
  | obj m ih =>
    show memberStrings (mapMembers f m) = (memberStrings m).map f
    induction m with
    | nil => rfl
    | cons p m ihm =>
      obtain ⟨k, v⟩ := p
      have hm := ihm fun q hq => ih q (List.mem_cons_of_mem _ hq)
      rw [mapMembers, memberStrings, memberStrings, List.map_cons, List.map_append, hm, ih _ List.mem_cons_self]

theorem distinct_mapMembers {f : CStr → CStr} {m : List (CStr × Json R)} (hd : OMap.Distinct keyEq m)
    (hf : ∀ s ∈ memberStrings m, ∀ t ∈ memberStrings m, f s = f t → s = t) :
    OMap.Distinct keyEq (mapMembers f m) := by
  rw [mapMembers_eq]
  refine List.pairwise_map.2 (List.Pairwise.imp_of_mem (fun {p q} hp hq hpq => ?_) hd)
  have hne : p.1 ≠ q.1 := beq_eq_false_iff_ne.1 hpq
  exact beq_eq_false_iff_ne.2 fun h => hne (hf _ (strings_member hp).1 _ (strings_member hq).1 h)

end Json

/-! ### Equal values -/

namespace Json

mutual

/-- Equal values: objects are equal when they map the same keys to equal values, in any order. -/
inductive Same : Json R → Json R → Prop
  | null : Same .null .null
  | bool (b : Bool) : Same (.bool b) (.bool b)
  | int (i : Int) : Same (.int i) (.int i)
  | real (r : R) : Same (.real r) (.real r)
  | str (s : CStr) : Same (.str s) (.str s)
  | arr {l l' : List (Json R)} (h : SameElements l l') : Same (.arr l) (.arr l')
  | obj {m m₁ m' : List (CStr × Json R)} (hp : m.Perm m₁) (h : SameMembers m₁ m') : Same (.obj m) (.obj m')

inductive SameElements : List (Json R) → List (Json R) → Prop
  | nil : SameElements [] []
  | cons {v v' : Json R} {l l' : List (Json R)} (hv : Same v v') (hl : SameElements l l') :
      SameElements (v :: l) (v' :: l')

inductive SameMembers : List (CStr × Json R) → List (CStr × Json R) → Prop
  | nil : SameMembers [] []
  | cons {k : CStr} {v v' : Json R} {m m' : List (CStr × Json R)} (hv : Same v v') (hm : SameMembers m m') :
      SameMembers ((k, v) :: m) ((k, v') :: m')

end

theorem Same.refl (v : Json R) : Same v v := by
  induction v using Json.ind with
  | null => exact .null
  | bool b => exact .bool b
  | int i => exact .int i
  | real r => exact .real r
  | str s => exact .str s
  | arr l ih =>
    refine .arr ?_
    induction l with
    | nil => exact .nil
    | cons v l ihl => exact .cons (ih v List.mem_cons_self) (ihl fun u hu => ih u (List.mem_cons_of_mem v hu))
  | obj m ih =>
    refine .obj (.refl m) ?_
    induction m with
    | nil => exact .nil
    | cons p m ihm => exact .cons (ih p List.mem_cons_self) (ihm fun q hq => ih q (List.mem_cons_of_mem p hq))

theorem memberStrings_eq (m : List (CStr × Json R)) : memberStrings m = m.flatMap fun p => p.1 :: p.2.strings := by
  induction m with
  | nil => rfl
  | cons p m ih => rw [memberStrings, ih, List.flatMap_cons, List.cons_append]

mutual

theorem Same.strings_perm {v w : Json R} : Same v w → v.strings.Perm w.strings
  | .null | .bool _ | .int _ | .real _ | .str _ => .refl _
  | .arr h => h.strings_perm
  | .obj hp h => by
    have hm := hp.flatMap_right fun p => p.1 :: p.2.strings
    rw [← memberStrings_eq, ← memberStrings_eq] at hm
    exact hm.trans h.strings_perm

theorem SameElements.strings_perm {l l' : List (Json R)} : SameElements l l' →
    (elementStrings l).Perm (elementStrings l')
  | .nil => .refl _
  | .cons hv hl => hv.strings_perm.append hl.strings_perm

theorem SameMembers.strings_perm {m m' : List (CStr × Json R)} : SameMembers m m' →
    (memberStrings m).Perm (memberStrings m')
  | .nil => .refl _
  | .cons hv hm => (hv.strings_perm.append hm.strings_perm).cons _

end

end Json

end Pcl
