import Pcl.Json.PathWalk
import Pcl.Json.Counted

/-!
# The references of a match

`walk_path` over a document with counts: each value that it appends is referenced once more. It does
not free, and a recursive descent that is the last node of a path ends in a dereference of NULL.
`WalkClosed.walk` is the induction over the walk: what holds of its parts holds of it.
-/

namespace Pcl
variable {R : Type}

/-- `pcl_array_append(results, pcl_json_ref(v, 1))`. -/
def appendRef (v : Node R) : RefM (List (Node R)) := do
  jsonRef v 1
  return [v]

/-- Two computations that append to the results, one after the other. -/
def RefM.cat (x y : RefM (List (Node R))) : RefM (List (Node R)) := do
  let r ← x
  let rs ← y
  return r ++ rs

/-- The values that a function appends for the elements of a list. -/
def forEachRef {α : Type} (f : α → RefM (List (Node R))) : List α → RefM (List (Node R))
  | [] => return []
  | a :: l => .cat (f a) (forEachRef f l)

/-- What `walk_path` does with a value it found. -/
def followRef (walk : List PathNode → Node R → RefM (List (Node R))) (next : List PathNode) (v : Node R) :
    RefM (List (Node R)) :=
  if next.isEmpty then appendRef v else walk next v

/-- What `walk_path` does with the element at an index. -/
def followElementRef (walk : List PathNode → Node R → RefM (List (Node R))) (next : List PathNode)
    (array : List (Node R)) (index : Int) : RefM (List (Node R)) :=
  match elementAt array index with
  | some elem => followRef walk next elem
  | none => return []

/-- The loop over a slice. -/
def sliceLoopRef (f : Int → RefM (List (Node R))) (stop step : Int) : Nat → Int → RefM (List (Node R))
  | 0, _ => .fault .noFuel
  | n + 1, i =>
    if i < stop then
      .cat (f i) (if i + step < intMin ∨ i + step > intMax then .fault .overflow
        else sliceLoopRef f stop step n (i + step))
    else return []

/-- `walk_path`. -/
def walkNodes : Nat → List PathNode → Node R → RefM (List (Node R))
  | 0, _, _ => .fault .noFuel
  | _ + 1, [], _ => .fault .nullNext
  | n + 1, node :: next, v =>
    match node with
    | .root => followRef (walkNodes n) next v
    | .member name =>
      match v with
      | .obj _ m =>
        match OMap.find Json.keyEq m name with
        | some p => followRef (walkNodes n) next p.2
        | none => return []
      | _ => return []
    | .recursiveDescent =>
      match v with
      | .obj _ m => forEachRef (fun ent =>
          match next with
          | [] => .fault .nullNext
          | .member name :: _ =>
            if name = ent.1 then walkNodes n next v else walkNodes n (node :: next) ent.2
          | _ => walkNodes n (node :: next) ent.2) m
      | .arr _ l => forEachRef (fun (i, elem) =>
          match next with
          | [] => .fault .nullNext
          | .element index :: _ =>
            if index = i then walkNodes n next v else walkNodes n (node :: next) elem
          | _ => walkNodes n (node :: next) elem) (l.zipIdx.map fun p => ((p.2 : Int), p.1))
      | _ => return []
    | .wildcardMember =>
      match v with
      | .obj _ m => forEachRef (fun ent => followRef (walkNodes n) next ent.2) m
      | _ => appendRef v
    | .element index =>
      match v with
      | .arr _ l => followElementRef (walkNodes n) next l index
      | _ => return []
    | .elementList idxList =>
      match v with
      | .arr _ l => forEachRef (followElementRef (walkNodes n) next l) idxList
      | _ => return []
    | .wildcardElement =>
      match v with
      | .arr _ l => forEachRef (followRef (walkNodes n) next) l
      | _ => appendRef v
    | .elementSlice start stop step =>
      match v with
      | .arr _ l => sliceLoopRef (followElementRef (walkNodes n) next l) (sliceStop stop l.length) step n
          (sliceStart start l.length)
      | _ => return []

/-- `pcl_json_match`; the array of the results is a new one, with `pcl_json_free` as its cleanup. -/
def matchNodes (fuel : Nat) (root : Node R) (path : List PathNode) : RefM (List (Node R)) := walkNodes fuel path root

/-! ### Induction over the walk -/

/-- A path without a NULL that is dereferenced: it has a node, and each recursive descent has a next one. -/
def PathLinked (path : List PathNode) : Prop :=
  path ≠ [] ∧ ∀ pre post, path = pre ++ .recursiveDescent :: post → post ≠ []

theorem PathLinked.tail {node : PathNode} {next : List PathNode} (h : PathLinked (node :: next)) (hne : next ≠ []) : PathLinked next :=
  ⟨hne, fun pre post heq => h.2 (node :: pre) post (by rw [heq]; rfl)⟩

/-- A property of walks that holds of the values that are appended, and of walks one after the other. -/
structure WalkClosed (P : RefM (List (Node R)) → Prop) (S : Node R → Prop) : Prop where
  children : ∀ v, S v → ∀ c ∈ v.children, S c
  nil : P (pure [])
  append : ∀ v, S v → P (appendRef v)
  cat : ∀ x y, P x → P y → P (.cat x y)
  noFuel : P (.fault .noFuel)
  overflow : P (.fault .overflow)

namespace WalkClosed
variable {P : RefM (List (Node R)) → Prop} {S : Node R → Prop} {n : Nat} {next : List PathNode}

theorem member (h : WalkClosed P S) {m : List (CStr × Node R)} {a : Nat} (hm : S (.obj a m)) {p : CStr × Node R} (hp : p ∈ m) :
    S p.2 := h.children _ hm _ (List.mem_map_of_mem hp)

theorem forEach (h : WalkClosed P S) {α : Type} {f : α → RefM (List (Node R))} {l : List α} (hf : ∀ a ∈ l, P (f a)) :
    P (forEachRef f l) := by
  induction l with
  | nil => exact h.nil
  | cons a l ih => exact h.cat _ _ (hf a List.mem_cons_self) (ih fun b hb => hf b (List.mem_cons_of_mem a hb))

theorem sliceLoop (h : WalkClosed P S) {f : Int → RefM (List (Node R))} {stop step i : Int} (hf : ∀ k, P (f k)) :
    P (sliceLoopRef f stop step n i) := by
  induction n generalizing i with
  | zero => exact h.noFuel
  | succ n ih =>
    rw [sliceLoopRef]
    split
    · refine h.cat _ _ (hf i) ?_
      split
      · exact h.overflow
      · exact ih
    · exact h.nil

theorem follow (h : WalkClosed P S) (hnext : next ≠ [] → ∀ u, S u → P (walkNodes n next u)) (u : Node R) (hu : S u) :
    P (followRef (walkNodes n) next u) := by
  unfold followRef
  by_cases hne : next = []
  · rw [hne]
    exact h.append u hu
  · rw [if_neg (by simpa using hne)]
    exact hnext hne u hu

theorem followElement (h : WalkClosed P S) (hnext : next ≠ [] → ∀ u, S u → P (walkNodes n next u)) {l : List (Node R)}
    (hl : ∀ c ∈ l, S c) (i : Int) : P (followElementRef (walkNodes n) next l i) := by
  unfold followElementRef
  cases hc : elementAt l i with
  | none => exact h.nil
  | some c => exact h.follow hnext c (hl c (elementAt_mem hc))

/-- A recursive descent goes on behind itself in the value, or with itself in the entries. -/
theorem descent (h : WalkClosed P S) {v : Node R} (hv : S v) (hnext : next ≠ [] → ∀ u, S u → P (walkNodes n next u))
    (hself : ∀ u, S u → P (walkNodes n (.recursiveDescent :: next) u)) (hend : next = [] → P (.fault .nullNext)) :
    P (walkNodes (n + 1) (.recursiveDescent :: next) v) := by
  cases v with
  | arr a l =>
    refine h.forEach fun p hp => ?_
    obtain ⟨q, hq, rfl⟩ := List.mem_map.1 hp
    have hc := hself q.1 (h.children _ hv _ (List.fst_mem_of_mem_zipIdx hq))
    cases next with
    | nil => exact hend rfl
    | cons hit next =>
      cases hit with
      | element index =>
        show P (if index = (q.2 : Int) then _ else _)
        split
        · exact hnext nofun _ hv
        · exact hc
      | _ => exact hc
  | obj a m =>
    refine h.forEach fun p hp => ?_
    have hc := hself p.2 (h.member hv hp)
    cases next with
    | nil => exact hend rfl
    | cons hit next =>
      cases hit with
      | member name =>
        show P (if name = p.1 then _ else _)
        split
        · exact hnext nofun _ hv
        · exact hc
      | _ => exact hc
  | _ => exact h.nil

theorem walk (h : WalkClosed P S) {path : List PathNode} {v : Node R} (hnull : ¬ PathLinked path → P (.fault .nullNext))
    (hv : S v) : P (walkNodes n path v) := by
  induction n generalizing path v with
  | zero => exact h.noFuel
  | succ n ih =>
    cases path with
    | nil => exact hnull fun hl => hl.1 rfl
    | cons node next =>
      have hnext (hne : next ≠ []) (u : Node R) (hu : S u) : P (walkNodes n next u) :=
        ih (fun hn => hnull fun hl => hn (hl.tail hne)) hu
      have hfollow := h.follow hnext
      have helement (l : List (Node R)) (hl : ∀ c ∈ l, S c) := h.followElement hnext hl
      cases node with
      | root => exact hfollow v hv
      | member name =>
        cases v with
        | obj a m =>
          rw [walkNodes]
          cases hp : OMap.find Json.keyEq m name with
          | none => exact h.nil
          | some p => exact hfollow p.2 (h.member hv (OMap.find_mem hp).1)
        | _ => exact h.nil
      | recursiveDescent =>
        exact h.descent hv hnext (fun u hu => ih hnull hu) fun heq => hnull fun hl => hl.2 [] next rfl heq
      | wildcardMember =>
        cases v with
        | obj a m => exact h.forEach fun p hp => hfollow p.2 (h.member hv hp)
        | _ => exact h.append _ hv
      | element index =>
        cases v with
        | arr a l => exact helement l (h.children _ hv) index
        | _ => exact h.nil
      | elementList idxList =>
        cases v with
        | arr a l => exact h.forEach fun i _ => helement l (h.children _ hv) i
        | _ => exact h.nil
      | wildcardElement =>
        cases v with
        | arr a l => exact h.forEach fun c hc => hfollow c (h.children _ hv c hc)
        | _ => exact h.append _ hv
      | elementSlice start stop step =>
        cases v with
        | arr a l => exact h.sliceLoop (helement l (h.children _ hv))
        | _ => exact h.nil

end WalkClosed

/-! ### What the walk takes -/

/-- The references to the nodes of a list. -/
def Heap.take (h : Heap) (l : List (Node R)) : Heap := { h with nrefs := fun a => h.nrefs a + Node.heldBy l a }

/-- A computation that appends nodes of `v` to the results, with a reference to each. -/
def Takes (v : Node R) (x : RefM (List (Node R))) : Prop :=
  ∀ h res h', x h = .ok (res, h') →
    (∀ u ∈ res, u ∈ v.nodes) ∧ h' = h.take res ∧ ∀ a, h.nrefs a ≤ intMax → h'.nrefs a ≤ intMax

namespace Takes
variable {v u : Node R} {x y : RefM (List (Node R))}

theorem fault (f : RefFault) : Takes v (.fault f) := nofun

theorem nil : Takes v (pure []) := by
  rintro h _ _ ⟨⟩
  refine ⟨nofun, ?_, fun _ hmax => hmax⟩
  unfold Heap.take Node.heldBy
  simp

theorem append (hu : u ∈ v.nodes) : Takes v (appendRef u) := by
  intro h res h' hrun
  obtain ⟨_, h₁, href, hpure⟩ := RefM.bind_inv hrun
  cases hpure
  have hin : ∀ w ∈ [u], w ∈ v.nodes := fun w hw => List.mem_singleton.1 hw ▸ hu
  have hheld (b : Nat) : Node.heldBy [u] b = if u.addr? = some b then 1 else 0 := by
    rw [Node.heldBy_cons]
    exact Nat.zero_add _
  have htake (b : Nat) : (h.take [u]).nrefs b = h.nrefs b + (if u.addr? = some b then 1 else 0 : Nat) := by
    rw [← hheld]
    rfl
  rcases jsonRef_inv href with ⟨hnone, heq⟩ | ⟨a, ha, hmax, heq⟩
  · cases heq
    refine ⟨hin, Heap.ext ?_ rfl, fun _ hb => hb⟩
    funext b
    rw [htake, hnone]
    simp
  · cases heq
    refine ⟨hin, Heap.ext ?_ rfl, fun b hb => ?_⟩
    · funext b
      rw [htake, ha]
      by_cases hab : a = b
      · subst hab
        simp
      · simp [Heap.count_nrefs_ne _ _ (Ne.symm hab), hab]
    · by_cases hab : b = a
      · rwa [hab, Heap.count_nrefs]
      · rwa [Heap.count_nrefs_ne _ _ hab]

theorem cat (hx : Takes v x) (hy : Takes v y) : Takes v (.cat x y) := by
  intro h res h' hrun
  obtain ⟨r, h₁, hr, hrest⟩ := RefM.bind_inv hrun
  obtain ⟨rs, h₂, hrs, hpure⟩ := RefM.bind_inv hrest
  cases hpure
  obtain ⟨hin, rfl, hmax⟩ := hx h r h₁ hr
  obtain ⟨hin', rfl, hmax'⟩ := hy _ rs _ hrs
  refine ⟨fun u hu => ?_, Heap.ext ?_ rfl, fun a ha => hmax' a (hmax a ha)⟩
  · rcases List.mem_append.1 hu with hu | hu
    · exact hin u hu
    · exact hin' u hu
  · funext a
    show h.nrefs a + (Node.heldBy r a : Int) + (Node.heldBy rs a : Int) = h.nrefs a + (Node.heldBy (r ++ rs) a : Int)
    rw [Node.heldBy_append]
    omega

end Takes

theorem takes_closed (v : Node R) : WalkClosed (Takes v) (· ∈ v.nodes) where
  children _ hu _ hc := Node.child_mem_nodes hu hc
  nil := .nil
  append _ hu := .append hu
  cat _ _ hx hy := .cat hx hy
  noFuel := .fault _
  overflow := .fault _

theorem walkNodes_takes (n : Nat) (path : List PathNode) (v : Node R) : Takes v (walkNodes n path v) :=
  (takes_closed v).walk (fun _ => .fault _) (Node.self_mem_nodes v)

/-! ### The walk without counts -/

/-- The results are those of a computation over the values. -/
def Erases (x : RefM (List (Node R))) (y : ErrM (List (Json R))) : Prop :=
  ∀ h res h', x h = .ok (res, h') → ∀ e, ∃ e', y e = some (res.map Node.json, e')

namespace Erases
variable {x x' : RefM (List (Node R))} {y y' : ErrM (List (Json R))}

theorem fault (f : RefFault) : Erases (.fault f : RefM (List (Node R))) y := nofun

theorem nil : Erases (pure [] : RefM (List (Node R))) (pure []) := by
  rintro h _ _ ⟨⟩ e
  exact ⟨e, rfl⟩

theorem append (v : Node R) : Erases (appendRef v) (pure [v.json]) := by
  intro h res h' hrun e
  obtain ⟨_, h₁, _, hpure⟩ := RefM.bind_inv hrun
  cases hpure
  exact ⟨e, rfl⟩

theorem cat (hx : Erases x y) (hx' : Erases x' y') :
    Erases (.cat x x') (y >>= fun r => y' >>= fun rs => pure (r ++ rs)) := by
  intro h res h' hrun e
  obtain ⟨r, h₁, hr, hrest⟩ := RefM.bind_inv hrun
  obtain ⟨rs, h₂, hrs, hpure⟩ := RefM.bind_inv hrest
  cases hpure
  obtain ⟨e₁, he₁⟩ := hx h r h₁ hr e
  obtain ⟨e₂, he₂⟩ := hx' h₁ rs _ hrs e₁
  refine ⟨e₂, ?_⟩
  rw [ErrM.bind_run, he₁, Option.bind_some, ErrM.bind_run, he₂, Option.bind_some, List.map_append]
  rfl

theorem forEach {α β : Type} {f : α → RefM (List (Node R))} {g : β → ErrM (List (Json R))} {k : α → β} {l : List α}
    (hf : ∀ a ∈ l, Erases (f a) (g (k a))) : Erases (forEachRef f l) (Pcl.forEach g (l.map k)) := by
  induction l with
  | nil => exact nil
  | cons a l ih => exact cat (hf a List.mem_cons_self) (ih fun b hb => hf b (List.mem_cons_of_mem a hb))

theorem sliceLoop {f : Int → RefM (List (Node R))} {g : Int → ErrM (List (Json R))} {stop step : Int}
    (hf : ∀ k, Erases (f k) (g k)) (n : Nat) (i : Int) :
    Erases (sliceLoopRef f stop step n i) (Pcl.sliceLoop g stop step n i) := by
  induction n generalizing i with
  | zero => exact fault _
  | succ n ih =>
    rw [sliceLoopRef, Pcl.sliceLoop]
    by_cases hi : i < stop
    · rw [if_pos hi, if_pos hi]
      by_cases hover : i + step < intMin ∨ i + step > intMax
      · rw [if_pos hover]
        intro h res h' hrun
        obtain ⟨r, h₁, _, hrest⟩ := RefM.bind_inv hrun
        obtain ⟨_, _, hfault, _⟩ := RefM.bind_inv hrest
        cases hfault
      · simp only [if_neg hover]
        exact cat (hf i) (ih (i + step))
    · rw [if_neg hi, if_neg hi]
      exact nil

/-- The computation moves the error state, and goes on. -/
theorem after {α : Type} {z : ErrM α} {a : α} {f : α → ErrM (List (Json R))} (hz : ∀ e, ∃ e', z e = some (a, e'))
    (hx : Erases x (f a)) : Erases x (z >>= f) := by
  intro h res h' hrun e
  obtain ⟨e₁, he₁⟩ := hz e
  obtain ⟨e₂, he₂⟩ := hx h res h' hrun e₁
  exact ⟨e₂, by rw [ErrM.bind_run, he₁]; exact he₂⟩

end Erases

theorem elementAt_map {α β : Type} (f : α → β) (l : List α) (i : Int) : elementAt (l.map f) i = (elementAt l i).map f := by
  unfold elementAt
  split
  · rfl
  · rw [List.getElem?_map]

theorem find_json (m : List (CStr × Node R)) (name : CStr) :
    OMap.find Json.keyEq (m.map fun p => (p.1, p.2.json)) name =
      (OMap.find Json.keyEq m name).map fun p => (p.1, p.2.json) := List.find?_map ..

section
variable {n : Nat}

theorem followRef_erases (ih : ∀ path (v : Node R), Erases (walkNodes n path v) (walkPath n path v.json))
    (next : List PathNode) (u : Node R) :
    Erases (followRef (walkNodes n) next u) (follow (walkPath n) next u.json) := by
  unfold followRef follow
  cases next.isEmpty with
  | true => exact .append u
  | false => exact ih next u

theorem followElementRef_erases (ih : ∀ path (v : Node R), Erases (walkNodes n path v) (walkPath n path v.json))
    (next : List PathNode) (l : List (Node R)) (i : Int) :
    Erases (followElementRef (walkNodes n) next l i) (followElement (walkPath n) next (l.map Node.json) i) := by
  unfold followElementRef followElement
  refine .after (a := ()) (fun e => ⟨_, errFreeze_run e true⟩) (.after (a := (elementAt l i).map Node.json) (fun e => ?_)
    (.after (a := ()) (fun e => ⟨_, errFreeze_run e false⟩) ?_))
  · obtain ⟨e', he', _⟩ := arrayGet_yields (l.map Node.json) i e
    rw [← elementAt_map]
    exact ⟨e', he'⟩
  · cases elementAt l i with
    | none => exact .nil
    | some c => exact followRef_erases ih next c

theorem descent_erases (ih : ∀ path (v : Node R), Erases (walkNodes n path v) (walkPath n path v.json))
    (next : List PathNode) (v : Node R) :
    Erases (walkNodes (n + 1) (.recursiveDescent :: next) v) (walkPath (n + 1) (.recursiveDescent :: next) v.json) := by
  cases v with
  | arr a l =>
    have hzip : (l.map Node.json).zipIdx.map (fun p => ((p.2 : Int), p.1)) =
        (l.zipIdx.map fun p => ((p.2 : Int), p.1)).map fun q => (q.1, q.2.json) := by
      rw [List.zipIdx_map, List.map_map, List.map_map]
      rfl
    rw [Node.json_arr, walkNodes, walkPath, hzip]
    refine .forEach fun q _ => ?_
    cases next with
    | nil => exact .fault _
    | cons hit next =>
      have hhit := ih (hit :: next) (.arr a l)
      have hmiss := ih (.recursiveDescent :: hit :: next) q.2
      rw [Node.json_arr] at hhit
      cases hit with
      | element index =>
        show Erases (if index = q.1 then _ else _) (if index = q.1 then _ else _)
        split
        · exact hhit
        · exact hmiss
      | _ => exact hmiss
  | obj a m =>
    rw [Node.json_obj, walkNodes, walkPath]
    refine .forEach fun p _ => ?_
    cases next with
    | nil => exact .fault _
    | cons hit next =>
      have hhit := ih (hit :: next) (.obj a m)
      have hmiss := ih (.recursiveDescent :: hit :: next) p.2
      rw [Node.json_obj] at hhit
      cases hit with
      | member name =>
        show Erases (if name = p.1 then _ else _) (if name = p.1 then _ else _)
        split
        · exact hhit
        · exact hmiss
      | _ => exact hmiss
  | _ => exact .nil

end

/-- What the walk with counts appends is what the walk over the values does. -/
theorem walkNodes_erases (n : Nat) (path : List PathNode) (v : Node R) : Erases (walkNodes n path v) (walkPath n path v.json) := by
  induction n generalizing path v with
  | zero => exact .fault _
  | succ n ih =>
    cases path with
    | nil => exact .fault _
    | cons node next =>
      have hfollow := followRef_erases ih next
      have helement := followElementRef_erases ih next
      cases node with
      | root => exact hfollow v
      | member name =>
        cases v with
        | obj a m =>
          rw [Node.json_obj, walkNodes, walkPath]
          refine .after (a := ((OMap.find Json.keyEq m name).map Prod.snd).map Node.json) (fun e => ?_) ?_
          · obtain ⟨e', he', _⟩ := jsonObjget_yields (m.map fun p => (p.1, p.2.json)) name e
            refine ⟨e', ?_⟩
            rw [he', find_json, Option.map_map, Option.map_map]
            rfl
          · cases OMap.find Json.keyEq m name with
            | none => exact .nil
            | some p => exact hfollow p.2
        | _ => exact .nil
      | recursiveDescent => exact descent_erases ih next v
      | wildcardMember =>
        cases v with
        | obj a m =>
          rw [Node.json_obj, walkNodes, walkPath]
          exact .forEach fun p _ => hfollow p.2
        | _ => exact .append _
      | element index =>
        cases v with
        | arr a l =>
          rw [Node.json_arr]
          exact helement l index
        | _ => exact .nil
      | elementList idxList =>
        cases v with
        | arr a l =>
          rw [Node.json_arr, walkNodes, walkPath]
          have hlist := Erases.forEach (k := id) (l := idxList) fun i _ => helement l i
          rwa [List.map_id] at hlist
        | _ => exact .nil
      | wildcardElement =>
        cases v with
        | arr a l =>
          rw [Node.json_arr, walkNodes, walkPath]
          exact .forEach fun c _ => hfollow c
        | _ => exact .append _
      | elementSlice start stop step =>
        cases v with
        | arr a l =>
          rw [Node.json_arr, walkNodes, walkPath, List.length_map]
          exact .sliceLoop (helement l) n _
        | _ => exact .nil

/-! ### Both orders of the two frees -/

section
variable {doc : Node R} {h h₁ : Heap} {res : List (Node R)}

/-- The counts after a match of a document with one reference to each block. -/
theorem Takes.counted {x : RefM (List (Node R))} (hx : Takes doc x) (hone : ∀ a ∈ doc.addrs, h.nrefs a = 1 ∧ h.freed a = 0)
    (hrun : x h = .ok (res, h₁)) : Node.Counted (Node.heldBy res) h₁ doc 1 := by
  obtain ⟨_, rfl, hmax⟩ := hx h res h₁ hrun
  refine .of_nrefs fun a ha => ?_
  obtain ⟨hn, hf⟩ := hone a ha
  have hcount : (h.take res).nrefs a = ((1 + Node.heldBy res a : Nat) : Int) := by
    show h.nrefs a + (Node.heldBy res a : Int) = _
    rw [hn]
    exact (Nat.cast_add 1 _).symm
  exact ⟨hcount, hcount ▸ hmax a (by rw [hn]; decide), hf⟩

theorem heldBy_off (hin : ∀ u ∈ res, u ∈ doc.nodes) {a : Nat} (ha : a ∉ doc.addrs) : Node.heldBy res a = 0 := by
  refine List.count_eq_zero.2 fun hmem => ?_
  obtain ⟨u, hu, hua⟩ := List.mem_filterMap.1 hmem
  exact ha (Node.addr_mem_addrs (hin u hu) hua)

theorem freeElements_restores (hnodup : doc.addrs.Nodup) (hone : ∀ a ∈ doc.addrs, h.nrefs a = 1 ∧ h.freed a = 0)
    {x : RefM (List (Node R))} (hx : Takes doc x) (hrun : x h = .ok (res, h₁)) : freeElements res h₁ = .ok ((), h) := by
  have hc := hx.counted hone hrun
  rw [← List.append_nil res] at hc
  obtain ⟨hin, rfl, -⟩ := hx h res h₁ hrun
  obtain ⟨h', hfree, hc', hsame⟩ := hc.freeElements_held hnodup hin
  suffices heq : h' = h by rw [hfree, heq]
  have hall (a : Nat) : h'.nrefs a = h.nrefs a ∧ h'.freed a = h.freed a := by
    by_cases ha : a ∈ doc.addrs
    · obtain ⟨hn, hf⟩ := hc'.all_one (fun _ => rfl) a ha
      obtain ⟨hn', hf'⟩ := hone a ha
      exact ⟨hn.trans hn'.symm, hf.trans hf'.symm⟩
    · obtain ⟨hn, hf⟩ := hsame a ha
      refine ⟨hn.trans ?_, hf⟩
      show h.nrefs a + (Node.heldBy res a : Int) = _
      rw [heldBy_off hin ha]
      exact Int.add_zero _
  exact Heap.ext (funext fun a => (hall a).1) (funext fun a => (hall a).2)

end

/-- The references of a match balance: freeing the results gives back the heap from before it. When the document is
freed first, each result stays with all below it until it is freed itself, and then each block was freed once. -/
theorem match_references (fuel : Nat) (path : List PathNode) (doc : Node R) (h h₁ : Heap) (res : List (Node R))
    (hnodup : doc.addrs.Nodup) (hone : ∀ a ∈ doc.addrs, h.nrefs a = 1 ∧ h.freed a = 0)
    (hrun : matchNodes fuel doc path h = .ok (res, h₁)) :
    freeElements res h₁ = .ok ((), h) ∧
    ∃ h₂, jsonFree doc h₁ = .ok ((), h₂) ∧
      (∀ pre post, res = pre ++ post →
        ∃ h', freeElements pre h₂ = .ok ((), h') ∧ ∀ u ∈ post, ∀ a ∈ u.addrs, h'.freed a = 0) ∧
      ∃ h₃, freeElements res h₂ = .ok ((), h₃) ∧ ∀ a ∈ doc.addrs, h₃.freed a = 1 := by
  have htakes := walkNodes_takes fuel path doc
  have hin := (htakes h res h₁ hrun).1
  obtain ⟨h₂, hfree, hc, -⟩ := Node.Counted.releases doc (Node.heldBy res) 0 hnodup (htakes.counted hone hrun)
    (fun a _ => by omega) fun _ _ _ => rfl
  refine ⟨freeElements_restores hnodup hone htakes hrun, h₂, hfree, fun pre post hsplit => ?_, ?_⟩
  · subst hsplit
    obtain ⟨h', hpre, hc', -⟩ := hc.freeElements_held hnodup fun u hu => hin u (List.mem_append_left _ hu)
    refine ⟨h', hpre, fun u hu => hc'.alive_of_held (hin u (List.mem_append_right _ hu)) fun a ha => ?_⟩
    exact List.count_pos_iff.2 (List.mem_filterMap.2 ⟨u, hu, ha⟩)
  · rw [← List.append_nil res] at hc
    obtain ⟨h₃, hall, hc', -⟩ := hc.freeElements_held hnodup hin
    exact ⟨h₃, hall, hc'.all_freed fun _ => rfl⟩

/-- `$[0,0]` on `[[7]]`: the inner array is matched twice. -/
theorem match_references_twice :
    let inner : Node Unit := .arr 1 [.int 2 7]
    let h : Heap := ⟨fun _ => 1, fun _ => 0⟩
    ∃ h₁, matchNodes 3 (.arr 0 [inner]) [.root, .elementList [0, 0]] h = .ok ([inner, inner], h₁) ∧
      freeElements [inner, inner] h₁ = .ok ((), h) ∧
      ∃ h₂, jsonFree (.arr 0 [inner]) h₁ = .ok ((), h₂) ∧
        ∃ h₃, freeElements [inner, inner] h₂ = .ok ((), h₃) ∧ ∀ a ∈ [0, 1, 2], h₃.freed a = 1 := by
  refine ⟨_, rfl, ?_⟩
  obtain ⟨hback, h₂, hfree, _, hlast⟩ := match_references 3 [.root, .elementList [0, 0]]
    (.arr 0 [.arr 1 [.int 2 7]] : Node Unit) ⟨fun _ => 1, fun _ => 0⟩ _ _ (by decide) (fun _ _ => ⟨rfl, rfl⟩) rfl
  exact ⟨hback, h₂, hfree, hlast⟩

end Pcl
