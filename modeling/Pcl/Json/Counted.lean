import Pcl.Json.Refs
import Mathlib.Data.List.Pairwise

/-!
# Trees with counts

`Counted held h v up`: what the heap `h` says of a tree of which the blocks are held `held` times from outside, and
its root `up` times by what is above it. A block that nothing holds was freed once, and holds no others. Each
`pcl_json_free` of a node that is held takes one away (`release_within`), and a list of references goes with
the `pcl_array_free` of it (`freeElements_held`).
-/

namespace Pcl
variable {R : Type}

/-- What the heap says of a tree. -/
inductive Node.Counted (held : Nat → Nat) (h : Heap) : Node R → Nat → Prop
  | single {v up} : v.addr? = none → Counted held h v up
  | live {v up a} : v.addr? = some a → 0 < up + held a → ((up + held a : Nat) : Int) ≤ intMax →
      h.nrefs a = (up + held a : Nat) → h.freed a = 0 → (∀ c ∈ v.children, Counted held h c 1) → Counted held h v up
  | freed {v up a} : v.addr? = some a → up + held a = 0 → h.freed a = 1 → (∀ c ∈ v.children, Counted held h c 0) →
      Counted held h v up

namespace Node.Counted
variable {held held' : Nat → Nat} {h h' : Heap} {v : Node R} {up up' : Nat}

/-- It says nothing of blocks outside the tree. -/
theorem congr (hc : Counted held h v up) (hheld : ∀ a ∈ v.addrs, held' a = held a)
    (hsame : ∀ a ∈ v.addrs, h'.nrefs a = h.nrefs a ∧ h'.freed a = h.freed a) : Counted held' h' v up := by
  have root {v : Node R} {a : Nat} (ha : v.addr? = some a) : a ∈ v.addrs := addr_mem_addrs (self_mem_nodes v) ha
  induction hc with
  | single hv => exact .single hv
  | live hv hpos hmax hn hf _ ih =>
    rw [← hheld _ (root hv)] at hpos hmax hn
    rw [← (hsame _ (root hv)).1] at hn
    rw [← (hsame _ (root hv)).2] at hf
    exact .live hv hpos hmax hn hf fun c hc => ih c hc (fun a ha => hheld a (mem_addrs_of_child hc ha))
      fun a ha => hsame a (mem_addrs_of_child hc ha)
  | freed hv hzero hf _ ih =>
    rw [← hheld _ (root hv)] at hzero
    rw [← (hsame _ (root hv)).2] at hf
    exact .freed hv hzero hf fun c hc => ih c hc (fun a ha => hheld a (mem_addrs_of_child hc ha))
      fun a ha => hsame a (mem_addrs_of_child hc ha)

theorem frame (hc : Counted held h v up) {s : List Nat} (hs : h.SameOff s h') (hdisj : ∀ a ∈ v.addrs, a ∉ s) :
    Counted held h' v up := hc.congr (fun _ _ => rfl) fun a ha => hs a (hdisj a ha)

theorem children_of_pos (hc : Counted held h v up) {a : Nat} (ha : v.addr? = some a) (hpos : 0 < up + held a) :
    h.nrefs a = (up + held a : Nat) ∧ ((up + held a : Nat) : Int) ≤ intMax ∧ h.freed a = 0 ∧
      ∀ c ∈ v.children, Counted held h c 1 := by
  cases hc with
  | single hv => rw [hv] at ha; cases ha
  | live hv _ hmax hn hf hchildren =>
    cases hv.symm.trans ha
    exact ⟨hn, hmax, hf, hchildren⟩
  | freed hv hzero =>
    cases hv.symm.trans ha
    omega

/-- Freeing releases one reference to the root. -/
def Releases (v : Node R) : Prop :=
  ∀ (held' : Nat → Nat) (up' : Nat) {held : Nat → Nat} {h : Heap} {up : Nat}, v.addrs.Nodup → Counted held h v up →
    (∀ a, v.addr? = some a → up' + held' a + 1 = up + held a) →
    (∀ a ∈ v.addrs, v.addr? ≠ some a → held' a = held a) →
    ∃ h', jsonFree v h = .ok ((), h') ∧ Counted held' h' v up' ∧ h.SameOff v.addrs h'

theorem freeElements_counted {l : List (Node R)} (hl : ∀ c ∈ l, Releases c) (hnodup : (l.flatMap addrs).Nodup)
    (hc : ∀ c ∈ l, Counted held h c 1) :
    ∃ h', freeElements l h = .ok ((), h') ∧ (∀ c ∈ l, Counted held h' c 0) ∧ h.SameOff (l.flatMap addrs) h' := by
  induction l generalizing h with
  | nil => exact ⟨h, by rw [freeElements]; rfl, nofun, .rfl⟩
  | cons c l ih =>
    rw [List.flatMap_cons] at hnodup ⊢
    obtain ⟨hnc, hnl, hdisj⟩ := List.nodup_append'.1 hnodup
    obtain ⟨h₁, hrun₁, hc₁, hsame₁⟩ := hl c List.mem_cons_self held 0 hnc (hc c List.mem_cons_self)
      (fun a _ => by omega) fun _ _ _ => rfl
    have hrest (d : Node R) (hd : d ∈ l) : Counted held h₁ d 1 :=
      (hc d (List.mem_cons_of_mem _ hd)).frame hsame₁ fun a had hac =>
        hdisj hac (List.mem_flatMap.2 ⟨d, hd, had⟩)
    obtain ⟨h₂, hrun₂, hc₂, hsame₂⟩ := ih (fun d hd => hl d (List.mem_cons_of_mem _ hd)) hnl hrest
    refine ⟨h₂, ?_, ?_, ?_⟩
    · rw [freeElements, RefM.bind_ok hrun₁, hrun₂]
    · intro d hd
      rcases List.mem_cons.1 hd with rfl | hd
      · exact hc₁.frame hsame₂ fun a had => hdisj had
      · exact hc₂ d hd
    · exact (hsame₁.mono (List.subset_append_left ..)).trans (hsame₂.mono (List.subset_append_right ..))

theorem releases (v : Node R) : Releases v := by
  induction v using Node.ind with
  | step v ih =>
    intro held' up' held h up hnodup hc hroot hrest
    cases ha : v.addr? with
    | none => exact ⟨h, by rw [jsonFree_none ha]; rfl, .single ha, .rfl⟩
    | some a =>
      have hcount := hroot a ha
      obtain ⟨hn, hmax, hf, hchildren⟩ := hc.children_of_pos ha (by omega)
      obtain ⟨hflat, hnotin⟩ := nodup_addrs hnodup ha
      have hmem : a ∈ v.addrs := addr_mem_addrs (self_mem_nodes v) ha
      -- below the root, nothing is held otherwise than before
      have hheld (c : Node R) (hcv : c ∈ v.children) (b : Nat) (hb : b ∈ c.addrs) : held' b = held b := by
        refine hrest b (mem_addrs_of_child hcv hb) fun hvb => ?_
        cases ha.symm.trans hvb
        exact hnotin c hcv hb
      -- what happens to the root's own block is nothing to a child
      have hbeside (c : Node R) (hcv : c ∈ v.children) {h h' : Heap} {k : Nat} (hc : Counted held h c k)
          (hs : h.SameOff [a] h') : Counted held h' c k :=
        hc.frame hs fun b hb hba => hnotin c hcv (List.mem_singleton.1 hba ▸ hb)
      rw [jsonFree_some ha]
      by_cases hlast : up' + held' a = 0
      · obtain ⟨h₁, hrun, hc₁, hsame⟩ := freeElements_counted (h := h.count a 0) ih hflat fun c hcv =>
          hbeside c hcv (hchildren c hcv) (Heap.count_sameOff (List.mem_singleton_self a) 0)
        have hfreed : h₁.freed a = 0 := by
          rw [(hsame a fun hmem => ?_).2, Heap.count_freed, hf]
          obtain ⟨c, hcv, hac⟩ := List.mem_flatMap.1 hmem
          exact hnotin c hcv hac
        have hsub : v.children.flatMap addrs ⊆ v.addrs := fun b hb => by
          rw [addrs_eq]
          exact List.mem_append_right _ hb
        refine ⟨_, freeBlock_last ha hf (by omega) hrun hfreed, .freed ha hlast ?_ fun c hcv => ?_, ?_⟩
        · rw [Heap.free_freed, hfreed]
        · exact (hbeside c hcv (hc₁ c hcv) (Heap.free_sameOff (List.mem_singleton_self a))).congr (hheld c hcv)
            fun _ _ => ⟨rfl, rfl⟩
        · exact ((Heap.count_sameOff hmem 0).trans (hsame.mono hsub)).trans (Heap.free_sameOff hmem)
      · refine ⟨_, freeBlock_keep ha hf (by omega) (by omega), .live ha (by omega) (by omega) ?_ hf fun c hcv => ?_,
          Heap.count_sameOff hmem _⟩
        · rw [Heap.count_nrefs]
          omega
        · exact (hbeside c hcv (hchildren c hcv) (Heap.count_sameOff (List.mem_singleton_self a) _)).congr (hheld c hcv)
            fun _ _ => ⟨rfl, rfl⟩

/-- The root is as it was, and what the heap says of its children stays. -/
theorem of_children (hc : Counted held h v up)
    (hroot : ∀ a, v.addr? = some a → held' a = held a ∧ h'.nrefs a = h.nrefs a ∧ h'.freed a = h.freed a)
    (hchildren : ∀ c ∈ v.children, ∀ k, Counted held h c k → Counted held' h' c k) : Counted held' h' v up := by
  cases hc with
  | single hv => exact .single hv
  | live hv hpos hmax hn hf hbelow =>
    obtain ⟨hh, hn', hf'⟩ := hroot _ hv
    refine .live hv ?_ ?_ ?_ (hf'.trans hf) fun c hc => hchildren c hc 1 (hbelow c hc)
    · rwa [hh]
    · rwa [hh]
    · rw [hn', hh, hn]
  | freed hv hzero hf hbelow =>
    obtain ⟨hh, _, hf'⟩ := hroot _ hv
    exact .freed hv (by rwa [hh]) (hf'.trans hf) fun c hc => hchildren c hc 0 (hbelow c hc)

theorem exists_child (hc : Counted held h v up) {c : Node R} (hcv : c ∈ v.children) : ∃ k, Counted held h c k := by
  cases hc with
  | single hv =>
    rw [children_of_none hv] at hcv
    cases hcv
  | live _ _ _ _ _ hbelow => exact ⟨1, hbelow c hcv⟩
  | freed _ _ _ hbelow => exact ⟨0, hbelow c hcv⟩

variable (held') in
/-- Freeing a node somewhere in the tree releases one reference that is held to it. -/
theorem release_within {u : Node R} (hu : u ∈ v.nodes) (hnodup : v.addrs.Nodup) (hc : Counted held h v up)
    (hone : ∀ a, u.addr? = some a → held' a + 1 = held a) (hother : ∀ a, u.addr? ≠ some a → held' a = held a) :
    ∃ h', jsonFree u h = .ok ((), h') ∧ Counted held' h' v up ∧ h.SameOff u.addrs h' := by
  induction v using Node.ind generalizing up with
  | step v ih =>
    rw [nodes_eq] at hu
    rcases List.mem_cons.1 hu with rfl | hu
    · exact releases u held' up hnodup hc (fun a ha => by have := hone a ha; omega) fun a _ hne => hother a hne
    · obtain ⟨c, hcv, huc⟩ := List.mem_flatMap.1 hu
      obtain ⟨k, hck⟩ := hc.exists_child hcv
      obtain ⟨b, hb⟩ := addr_of_child hcv
      obtain ⟨hflat, hnotin⟩ := nodup_addrs hnodup hb
      obtain ⟨heach, hpair⟩ := List.nodup_flatMap.1 hflat
      have : Std.Symm (Function.onFun List.Disjoint (addrs (R := R))) := ⟨fun _ _ hxy => List.Disjoint.symm hxy⟩
      have hsub : u.addrs ⊆ c.addrs := addrs_subset huc
      obtain ⟨h', hrun, _, hsame⟩ := ih c hcv huc (heach c hcv) hck
      refine ⟨h', hrun, hc.of_children ?_ ?_, hsame⟩
      · intro a ha
        cases hb.symm.trans ha
        exact ⟨hother b fun hub => hnotin c hcv (addr_mem_addrs huc hub), hsame b fun hbu => hnotin c hcv (hsub hbu)⟩
      · intro d hdv j hdj
        by_cases hdc : d = c
        · -- the run is the same, whatever is above the child
          subst hdc
          obtain ⟨h'', hrun', hdj', _⟩ := ih d hdv huc (heach d hdv) hdj
          cases hrun.symm.trans hrun'
          exact hdj'
        · have hdisj (a : Nat) (had : a ∈ d.addrs) : a ∉ c.addrs := fun hac =>
            hpair.forall hdv hcv hdc had hac
          refine hdj.congr (fun a had => hother a fun hua => hdisj a had (addr_mem_addrs huc hua)) ?_
          exact fun a had => hsame a fun hau => hdisj a had (hsub hau)

/-- Freeing the first nodes of a list of references. -/
theorem freeElements_held {v : Node R} (hnodup : v.addrs.Nodup) {pre post : List (Node R)}
    (hpre : ∀ u ∈ pre, u ∈ v.nodes) {h : Heap} (hc : Counted (heldBy (pre ++ post)) h v up) :
    ∃ h', freeElements pre h = .ok ((), h') ∧ Counted (heldBy post) h' v up ∧ h.SameOff v.addrs h' := by
  induction pre generalizing h with
  | nil => exact ⟨h, by rw [freeElements]; rfl, hc, .rfl⟩
  | cons u pre ih =>
    have huv : u ∈ v.nodes := hpre u List.mem_cons_self
    obtain ⟨h₁, hrun₁, hc₁, hsame₁⟩ := hc.release_within (heldBy (pre ++ post)) huv hnodup
      (fun a ha => by rw [List.cons_append, heldBy_cons, if_pos ha])
      fun a ha => by rw [List.cons_append, heldBy_cons, if_neg ha, Nat.add_zero]
    obtain ⟨h₂, hrun₂, hc₂, hsame₂⟩ := ih (fun w hw => hpre w (List.mem_cons_of_mem _ hw)) hc₁
    refine ⟨h₂, ?_, hc₂, (hsame₁.mono (addrs_subset huv)).trans hsame₂⟩
    rw [freeElements, RefM.bind_ok hrun₁, hrun₂]

/-- A tree of which the root is in use is in use as a whole. -/
theorem alive (hc : Counted held h v up) (hpos : ∀ a, v.addr? = some a → 0 < up + held a) : ∀ a ∈ v.addrs, h.freed a = 0 := by
  induction v using Node.ind generalizing up with
  | step v ih =>
    intro b hb
    obtain ⟨a, ha, hb⟩ := mem_addrs hb
    obtain ⟨_, _, hf, hchildren⟩ := hc.children_of_pos ha (hpos a ha)
    rcases hb with rfl | ⟨c, hcv, hbc⟩
    · exact hf
    · exact ih c hcv (hchildren c hcv) (fun _ _ => by omega) b hbc

/-- What is held is in use, with all below it. -/
theorem alive_of_held (hc : Counted held h v up) {u : Node R} (hu : u ∈ v.nodes)
    (hheld : ∀ a, u.addr? = some a → 0 < held a) : ∀ a ∈ u.addrs, h.freed a = 0 := by
  induction v using Node.ind generalizing up with
  | step v ih =>
    rw [nodes_eq] at hu
    rcases List.mem_cons.1 hu with rfl | hu
    · exact hc.alive fun a ha => by have := hheld a ha; omega
    · obtain ⟨c, hcv, huc⟩ := List.mem_flatMap.1 hu
      obtain ⟨k, hck⟩ := hc.exists_child hcv
      exact ih c hcv hck huc

/-- A tree that nothing holds. -/
theorem all_freed (hc : Counted held h v 0) (hheld : ∀ a, held a = 0) : ∀ a ∈ v.addrs, h.freed a = 1 := by
  induction v using Node.ind with
  | step v ih =>
    intro b hb
    obtain ⟨a, ha, hb⟩ := mem_addrs hb
    cases hc with
    | single hnone => cases hnone.symm.trans ha
    | live _ hpos =>
      rw [hheld] at hpos
      omega
    | freed hroot _ hf hchildren =>
      cases hroot.symm.trans ha
      rcases hb with rfl | ⟨c, hcv, hbc⟩
      · exact hf
      · exact ih c hcv (hchildren c hcv) b hbc

/-- A tree that only what is above it holds. -/
theorem all_one (hc : Counted held h v 1) (hheld : ∀ a, held a = 0) : ∀ a ∈ v.addrs, h.nrefs a = 1 ∧ h.freed a = 0 := by
  induction v using Node.ind with
  | step v ih =>
    intro b hb
    obtain ⟨a, ha, hb⟩ := mem_addrs hb
    obtain ⟨hn, _, hf, hchildren⟩ := hc.children_of_pos ha (by omega)
    rcases hb with rfl | ⟨c, hcv, hbc⟩
    · exact ⟨by rw [hn, hheld]; rfl, hf⟩
    · exact ih c hcv (hchildren c hcv) b hbc

/-- A tree with one reference from above to each block, and those that are held. -/
theorem of_nrefs (hv : ∀ a ∈ v.addrs, h.nrefs a = (1 + held a : Nat) ∧ ((1 + held a : Nat) : Int) ≤ intMax ∧ h.freed a = 0) :
    Counted held h v 1 := by
  induction v using Node.ind with
  | step v ih =>
    cases ha : v.addr? with
    | none => exact .single ha
    | some a =>
      obtain ⟨hn, hmax, hf⟩ := hv a (addr_mem_addrs (self_mem_nodes v) ha)
      exact .live ha (by omega) hmax hn hf fun c hcv => ih c hcv fun b hb => hv b (mem_addrs_of_child hcv hb)

end Node.Counted

end Pcl
