import Pcl.Htable.Table
import Mathlib.Data.List.Perm.Subperm

/-!
# Bucket chains

`Linked entries lookup mask cap used`: the chain of every bucket visits exactly the live entries
below `used` whose hash code belongs to the bucket. The three ways the table changes its links keep
it: `linkEntry` (insertion), `unlinkEntry` (removal from anywhere in a chain) and `rehashLoop`. What
an entry holds besides its link is `coreAt`; the specs say which of those change.
-/

namespace Pcl

open LinkedStore

variable {K V : Type}

/-- An entry without its link. -/
def coreAt (entries : Array (Entry K V)) (i : Nat) : Option (UInt64 × Option K × Option V) :=
  entries[i]?.map fun e => (e.code, e.key, e.value)

/-- `entries[i]` is live and belongs to bucket `b`. -/
def LiveIn (entries : Array (Entry K V)) (mask b i : Nat) : Prop :=
  ∃ code key value, coreAt entries i = some (code, some key, value) ∧ code.toNat &&& mask = b

/-- The bucket chains list the live entries below `used`. -/
structure Linked (entries : Array (Entry K V)) (lookup : Array (Option Nat)) (mask cap used : Nat) :
    Prop where
  entries_size : entries.size = cap
  lookup_size : lookup.size = cap
  used_le : used ≤ cap
  chain : ∀ b < cap, ∃ s l, lookup[b]? = some s ∧ Chain (fun i => entries[i]?) Entry.next s l ∧
    ∀ i, i ∈ l ↔ i < used ∧ LiveIn entries mask b i

theorem HTable.pairAt_eq (entries : Array (Entry K V)) (i : Nat) :
    HTable.pairAt entries i = (coreAt entries i).bind fun c => c.2.1.map (·, c.2.2) := by
  simp [HTable.pairAt, coreAt, Option.bind_map]

theorem LiveIn.congr {es es' : Array (Entry K V)} {mask b i : Nat} (h : coreAt es' i = coreAt es i) :
    LiveIn es' mask b i ↔ LiveIn es mask b i := by simp only [LiveIn, h]

theorem LiveIn.bucket_eq {es : Array (Entry K V)} {mask b b' i : Nat} (h : LiveIn es mask b i)
    (h' : LiveIn es mask b' i) : b = b' := by
  obtain ⟨c, k, v, hc, rfl⟩ := h
  obtain ⟨c', k', v', hc', rfl⟩ := h'
  rw [hc] at hc'; cases hc'; rfl

theorem coreAt_setIfInBounds {es : Array (Entry K V)} {i : Nat} (e : Entry K V) (hi : i < es.size) (j : Nat) :
    coreAt (es.setIfInBounds i e) j = if i = j then some (e.code, e.key, e.value) else coreAt es j := by
  unfold coreAt
  rw [Array.getElem?_setIfInBounds]
  split
  · subst j; simp
  · rfl

/-- Relinking an entry keeps everything but its link. -/
theorem coreAt_modify_next (es : Array (Entry K V)) (i : Nat) (n : Option Nat) (j : Nat) :
    coreAt (es.modify i fun e => { e with next := n }) j = coreAt es j := by
  unfold coreAt
  rw [Array.getElem?_modify]
  split
  · simp [Option.map_map, Function.comp_def]
  · rfl

theorem Linked.chain_lt {es : Array (Entry K V)} {lk : Array (Option Nat)} {mask cap used : Nat}
    (h : Linked es lk mask cap used) {l : List Nat} {b : Nat}
    (hl : ∀ i, i ∈ l ↔ i < used ∧ LiveIn es mask b i) : ∀ i ∈ l, i < es.size := fun i hi => by
  have := ((hl i).1 hi).1
  have := h.used_le
  have := h.entries_size
  omega

/-- A chain is no longer than the array: the bound on the walks. -/
theorem Linked.chain_length {es : Array (Entry K V)} {lk : Array (Option Nat)} {mask cap used : Nat}
    (h : Linked es lk mask cap used) {l : List Nat} {b : Nat} {s : Option Nat}
    (hc : Chain (fun i => es[i]?) Entry.next s l)
    (hl : ∀ i, i ∈ l ↔ i < used ∧ LiveIn es mask b i) : l.length < es.size + 1 := by
  have hsub : l.length ≤ (List.range es.size).length :=
    (List.subperm_of_subset hc.nodup fun i hi => List.mem_range.2 (h.chain_lt hl i hi)).length_le
  rw [List.length_range] at hsub
  omega

theorem Linked.init (mask cap : Nat) :
    Linked (initEntries cap : Array (Entry K V)) (initLookup cap) mask cap 0 where
  entries_size := Array.size_replicate
  lookup_size := Array.size_replicate
  used_le := Nat.zero_le _
  chain b hb := ⟨none, [], by simp [initLookup, hb], .nil, by simp⟩

section link
variable {es : Array (Entry K V)} {lk : Array (Option Nat)} {mask cap used : Nat} {ent : Entry K V}

/-- What `linkEntry` leaves behind besides the links. -/
structure LinkedCore (es es' : Array (Entry K V)) (used : Nat) (ent : Entry K V) : Prop where
  new : coreAt es' used = some (ent.code, ent.key, ent.value)
  old : ∀ i, i ≠ used → coreAt es' i = coreAt es i

theorem LinkedCore.liveIn_iff {es' : Array (Entry K V)} {b i : Nat} (h : LinkedCore es es' used ent)
    (hk : ent.key.isSome) : (i < used + 1 ∧ LiveIn es' mask b i) ↔
      (i < used ∧ LiveIn es mask b i) ∨ (i = used ∧ ent.code.toNat &&& mask = b) := by
  obtain ⟨k, hk⟩ := Option.isSome_iff_exists.1 hk
  by_cases hi : i = used
  · subst i
    have : LiveIn es' mask b used ↔ ent.code.toNat &&& mask = b := by
      simp [LiveIn, h.new, hk]
    simp [this]
  · rw [LiveIn.congr (h.old i hi)]
    simp only [hi, false_and, or_false]
    constructor
    · rintro ⟨hlt, hl⟩; exact ⟨by omega, hl⟩
    · rintro ⟨hlt, hl⟩; exact ⟨by omega, hl⟩

/-- The buckets of the other chains do not notice an insertion that only writes `used` and the
head of bucket `b`. -/
theorem Linked.link_frame {es' : Array (Entry K V)} {lk' : Array (Option Nat)} {b b' : Nat}
    (h : Linked es lk mask cap used) (hcore : LinkedCore es es' used ent) (hk : ent.key.isSome)
    (hb : ent.code.toNat &&& mask = b) (hne : b' ≠ b) (hb' : b' < cap)
    (hlk : lk'[b']? = lk[b']?)
    (hes : ∀ i, i ≠ used → ¬ LiveIn es mask b i → es'[i]? = es[i]?) :
    ∃ s l, lk'[b']? = some s ∧ Chain (fun i => es'[i]?) Entry.next s l ∧
      ∀ i, i ∈ l ↔ i < used + 1 ∧ LiveIn es' mask b' i := by
  obtain ⟨s, l, hs, hc, hl⟩ := h.chain b' hb'
  refine ⟨s, l, hlk.trans hs, hc.congr fun i hi => ?_, fun i => ?_⟩
  · obtain ⟨hlt, hlive⟩ := (hl i).1 hi
    rw [hes i (by omega) fun hl' => hne (hlive.bucket_eq hl')]
  · rw [hcore.liveIn_iff hk, hl, hb]
    constructor
    · exact .inl
    · rintro (h | ⟨-, h⟩)
      · exact h
      · exact absurd h.symm hne

/-- `linkEntry` stores a live entry at the first unused slot and keeps the chains. -/
theorem Linked.link (h : Linked es lk mask cap used) (ent : Entry K V) (hu : used < cap) (hk : ent.key.isSome)
    (hb : ent.code.toNat &&& mask < cap) :
    ∃ es' lk', linkEntry es lk (ent.code.toNat &&& mask) used ent = some (es', lk') ∧
      Linked es' lk' mask cap (used + 1) ∧ LinkedCore es es' used ent := by
  have hsz : used < es.size := by rw [h.entries_size]; exact hu
  obtain ⟨s, l, hs, hc, hl⟩ := h.chain _ hb
  have hul : used ∉ l := fun hi => Nat.lt_irrefl _ ((hl used).1 hi).1
  cases s with
  | none =>
    have hnil : l = [] := by cases hc; rfl
    subst hnil
    have hcore : LinkedCore es (es.setIfInBounds used { ent with next := none }) used ent :=
      ⟨by simp [coreAt_setIfInBounds _ hsz], fun i hi => by
        simp [coreAt_setIfInBounds _ hsz, Ne.symm hi]⟩
    refine ⟨es.setIfInBounds used { ent with next := none },
      lk.setIfInBounds (ent.code.toNat &&& mask) (some used), by simp [linkEntry, hsz, hs], ?_, hcore⟩
    refine ⟨by simp [h.entries_size], by simp [h.lookup_size], hu, fun b' hb' => ?_⟩
    by_cases hne : b' = ent.code.toNat &&& mask
    · subst hne
      refine ⟨some used, [used], by simp [h.lookup_size, hb],
        .cons (e := { ent with next := none }) (by simp [hsz]) .nil, fun i => ?_⟩
      rw [hcore.liveIn_iff hk, ← hl]
      simp
    · refine h.link_frame hcore hk rfl hne hb' ?_ fun i hi _ => ?_
      · simp [Ne.symm hne]
      · simp [Ne.symm hi]
  | some p =>
    obtain ⟨t, rfl⟩ : ∃ t, l = p :: t := by cases hc; exact ⟨_, rfl⟩
    obtain ⟨-, head, hp, htl⟩ := Chain.cons_iff.1 hc
    have hpu : p ≠ used := fun hpu => hul (by simp [hpu])
    have hplive := ((hl p).1 (by simp)).2
    set es' := (es.setIfInBounds used { ent with next := head.next }).modify p
      fun head => { head with next := some used } with hes'
    have hread : ∀ i, i ≠ p → i ≠ used → es'[i]? = es[i]? := fun i hip hiu => by
      rw [hes', Array.getElem?_modify, if_neg (Ne.symm hip), Array.getElem?_setIfInBounds,
        if_neg (Ne.symm hiu)]
    have hcore : LinkedCore es es' used ent := by
      refine ⟨?_, fun i hi => ?_⟩
      · rw [hes', coreAt_modify_next, coreAt_setIfInBounds _ hsz, if_pos rfl]
      · rw [hes', coreAt_modify_next, coreAt_setIfInBounds _ hsz, if_neg (Ne.symm hi)]
    refine ⟨es', lk, by simp only [linkEntry, hsz, ↓reduceIte, hs, hp]; rfl, ?_, hcore⟩
    refine ⟨by simp [hes', h.entries_size], h.lookup_size, hu, fun b' hb' => ?_⟩
    by_cases hne : b' = ent.code.toNat &&& mask
    · subst hne
      have hused : es'[used]? = some { ent with next := head.next } := by
        rw [hes', Array.getElem?_modify, if_neg hpu, Array.getElem?_setIfInBounds, if_pos rfl,
          if_pos hsz]
      have hhead : es'[p]? = some { head with next := some used } := by
        rw [hes', Array.getElem?_modify, if_pos rfl, Array.getElem?_setIfInBounds,
          if_neg (Ne.symm hpu), hp]
        rfl
      refine ⟨some p, p :: used :: t, hs,
        hc.insert_after_head hp hhead hused rfl rfl fun i hi => ?_, fun i => ?_⟩
      · have hip : i ≠ p := fun hip => (List.nodup_cons.1 hc.nodup).1 (hip ▸ hi)
        have hiu : i ≠ used := fun hiu => hul (by simp [← hiu, hi])
        rw [hread i hip hiu]
      · rw [hcore.liveIn_iff hk, ← hl]
        simp only [List.mem_cons]
        tauto
    · exact h.link_frame hcore hk rfl hne hb' rfl fun i hi hni =>
        hread i (fun hip => hni (hip ▸ hplive)) hi

end link

section unlink
variable {es : Array (Entry K V)} {lk : Array (Option Nat)} {mask cap used : Nat}

/-- The entries after `unlinkEntry`. -/
def unlinkedEntries (es : Array (Entry K V)) (prev : Option Nat) (x : Nat) (next : Option Nat) :
    Array (Entry K V) :=
  (match prev with
    | some prev => es.modify prev fun e => { e with next := next }
    | none => es).setIfInBounds x Entry.deleted

/-- The buckets after `unlinkEntry`. -/
def unlinkedLookup (lk : Array (Option Nat)) (b : Nat) (prev next : Option Nat) : Array (Option Nat) :=
  match prev with
  | some _ => lk
  | none => lk.setIfInBounds b next

theorem unlinkEntry_eq (ht : HTable K V) (b : Nat) (prev : Option Nat) (x : Nat) (ent : Entry K V) :
    unlinkEntry ht b prev x ent = { ht with
      entries := unlinkedEntries ht.entries prev x ent.next
      entryLookup := unlinkedLookup ht.entryLookup b prev ent.next
      count := ht.count - 1 } := by
  cases prev <;> rfl

theorem coreAt_unlinked {x : Nat} (hx : x < es.size) (prev next : Option Nat) (i : Nat) :
    coreAt (unlinkedEntries es prev x next) i = if i = x then some (0, none, none) else coreAt es i := by
  unfold unlinkedEntries
  cases prev with
  | none => simp only [coreAt_setIfInBounds _ hx, eq_comm (a := x), Entry.deleted]
  | some p =>
    rw [coreAt_setIfInBounds _ (by simpa using hx), coreAt_modify_next]
    simp only [eq_comm (a := x), Entry.deleted]

theorem unlinkedEntries_ne {x i : Nat} {prev : Option Nat} (next : Option Nat) (hi : i ≠ x)
    (hp : prev ≠ some i) : (unlinkedEntries es prev x next)[i]? = es[i]? := by
  unfold unlinkedEntries
  rw [Array.getElem?_setIfInBounds, if_neg (Ne.symm hi)]
  cases prev with
  | none => rfl
  | some p =>
    have hpi : p ≠ i := fun h => hp (congrArg some h)
    rw [Array.getElem?_modify, if_neg hpi]

/-- Deleting an entry anywhere in its chain keeps the chains. -/
theorem Linked.unlink (h : Linked es lk mask cap used) {b : Nat} (hb : b < cap) {s : Option Nat}
    {l₁ l₂ : List Nat} {x : Nat} {ent : Entry K V} (hs : lk[b]? = some s)
    (hc : Chain (fun i => es[i]?) Entry.next s (l₁ ++ x :: l₂)) (hx : es[x]? = some ent)
    (hl : ∀ i, i ∈ l₁ ++ x :: l₂ ↔ i < used ∧ LiveIn es mask b i) :
    Linked (unlinkedEntries es l₁.getLast? x ent.next) (unlinkedLookup lk b l₁.getLast? ent.next)
      mask cap used := by
  have hxs : x < es.size := h.chain_lt hl x (by simp)
  have hxlive := ((hl x).1 (by simp)).2
  have hnd := hc.nodup
  have hxl : x ∉ l₁ ++ l₂ := (List.nodup_middle.1 hnd |> List.nodup_cons.1).1
  have hcore := coreAt_unlinked hxs l₁.getLast? ent.next
  have hlive : ∀ b' i, LiveIn (unlinkedEntries es l₁.getLast? x ent.next) mask b' i ↔
      i ≠ x ∧ LiveIn es mask b' i := fun b' i => by
    by_cases hi : i = x
    · simp [LiveIn, hcore, hi]
    · have hsame : coreAt (unlinkedEntries es l₁.getLast? x ent.next) i = coreAt es i := by
        rw [hcore, if_neg hi]
      rw [LiveIn.congr hsame]
      simp [hi]
  have hprev : ∀ p, l₁.getLast? = some p → LiveIn es mask b p := fun p hp =>
    ((hl p).1 (by simp [List.mem_of_getLast? hp])).2
  refine ⟨?_, ?_, h.used_le, fun b' hb' => ?_⟩
  · unfold unlinkedEntries; split <;> simp [h.entries_size]
  · unfold unlinkedLookup; split <;> simp [h.lookup_size]
  by_cases hne : b' = b
  · subst hne
    have hmem : ∀ i, i ∈ l₁ ++ l₂ ↔ i < used ∧
        LiveIn (unlinkedEntries es l₁.getLast? x ent.next) mask b' i := fun i => by
      rw [hlive]
      have := hl i
      simp only [List.mem_append, List.mem_cons] at this hxl ⊢
      constructor
      · intro hi
        have hix : i ≠ x := fun hix => hxl (hix ▸ hi)
        have := this.1 (by tauto)
        exact ⟨this.1, hix, this.2⟩
      · rintro ⟨hlt, hix, hli⟩
        have := this.2 ⟨hlt, hli⟩
        tauto
    rcases List.eq_nil_or_concat l₁ with rfl | ⟨l₀, p, rfl⟩
    · -- `x` heads its chain: the bucket now starts at its successor
      refine ⟨ent.next, l₂, by simp [unlinkedLookup, h.lookup_size, hb], ?_, hmem⟩
      have hsx := hc.head_eq
      simp only [List.nil_append, List.head?_cons] at hsx hc
      subst hsx
      refine (hc.tail hx).congr fun i hi => ?_
      rw [unlinkedEntries_ne _ (fun hix => hxl (by simp [← hix, hi])) (by simp)]
    · -- the node before `x` is pointed past it
      rw [List.concat_eq_append] at *
      simp only [List.append_assoc, List.singleton_append, List.getLast?_append, List.getLast?_singleton,
        Option.some_or] at *
      obtain ⟨ep, hp⟩ := hc.read_mem (i := p) (by simp)
      have hpx : p ≠ x := fun hpx => hxl (by simp [← hpx])
      have hp' : (unlinkedEntries es (some p) x ent.next)[p]? = some { ep with next := ent.next } := by
        unfold unlinkedEntries
        rw [Array.getElem?_setIfInBounds, if_neg (Ne.symm hpx), Array.getElem?_modify, if_pos rfl, hp]
        rfl
      refine ⟨s, l₀ ++ p :: l₂, hs, hc.unlink hx hp' rfl (fun i hi => ?_), hmem⟩
      · have hip : i ≠ p := fun hip => by
          have := (List.nodup_middle.1 hnd |> List.nodup_cons.1).1
          simp only [List.mem_append, List.mem_cons] at this hi
          subst hip; tauto
        have hix : i ≠ x := fun hix => hxl (by simp at hi ⊢; subst hix; tauto)
        rw [unlinkedEntries_ne _ hix (fun h => hip (Option.some.inj h).symm)]
  · obtain ⟨s', l', hs', hc', hl'⟩ := h.chain b' hb'
    refine ⟨s', l', ?_, hc'.congr fun i hi => ?_, fun i => ?_⟩
    · unfold unlinkedLookup
      split
      · exact hs'
      · rw [Array.getElem?_setIfInBounds, if_neg (Ne.symm hne)]; exact hs'
    · have hli := ((hl' i).1 hi).2
      have hix : i ≠ x := fun hix => hne (hli.bucket_eq (hix ▸ hxlive))
      rw [unlinkedEntries_ne _ hix fun hp => hne (hli.bucket_eq (hprev i hp))]
    · rw [hl', hlive]
      constructor
      · rintro ⟨hlt, hli⟩
        exact ⟨hlt, fun hix => hne (hli.bucket_eq (hix ▸ hxlive)), hli⟩
      · rintro ⟨hlt, -, hli⟩; exact ⟨hlt, hli⟩

end unlink

section rehash
variable {es : Array (Entry K V)} {lk : Array (Option Nat)} {mask cap used : Nat}

/-- An entry is live. -/
def Entry.isLive (e : Entry K V) : Bool := e.key.isSome

/-- Rehashing appends the live ones of the old entries, in their order. -/
theorem Linked.rehash (hmask : ∀ c : UInt64, c.toNat &&& mask < cap) (olds : List (Entry K V))
    (h : Linked es lk mask cap used) (hroom : used + olds.countP Entry.isLive ≤ cap) :
    ∃ es' lk', rehashLoop mask olds used es lk = some (es', lk') ∧
      Linked es' lk' mask cap (used + olds.countP Entry.isLive) ∧
      (List.range (used + olds.countP Entry.isLive)).map (coreAt es') =
        (List.range used).map (coreAt es) ++
          (olds.filter Entry.isLive).map fun e => some (e.code, e.key, e.value) := by
  induction olds generalizing es lk used with
  | nil => exact ⟨es, lk, rfl, h, by simp⟩
  | cons e olds ih =>
    cases hk : e.key with
    | none =>
      have hdead : e.isLive = false := by simp [Entry.isLive, hk]
      simp only [List.countP_cons, hdead, Bool.false_eq_true, ↓reduceIte, Nat.add_zero] at hroom ⊢
      simp only [rehashLoop, hk, Option.isNone_none, ↓reduceIte, List.filter_cons, hdead,
        Bool.false_eq_true]
      exact ih h hroom
    | some k =>
      have hlive : e.isLive = true := by simp [Entry.isLive, hk]
      simp only [List.countP_cons, hlive, ↓reduceIte] at hroom ⊢
      obtain ⟨es₁, lk₁, hlink, h₁, hcore⟩ := h.link e (by omega) hlive (hmask e.code)
      obtain ⟨es₂, lk₂, hloop, h₂, hmap⟩ := ih h₁ (by omega)
      rw [show used + 1 + olds.countP Entry.isLive = used + (olds.countP Entry.isLive + 1) by omega]
        at h₂ hmap
      refine ⟨es₂, lk₂, ?_, h₂, ?_⟩
      · simp only [rehashLoop, hk, Option.isNone_some, Bool.false_eq_true, ↓reduceIte, hlink,
          Option.bind_some, hloop]
      · rw [hmap, List.range_succ, List.map_append, List.map_singleton, hcore.new, List.filter_cons,
          if_pos hlive, List.map_cons, List.append_assoc, List.singleton_append]
        congr 1
        exact List.map_congr_left fun i hi => hcore.old i (Nat.ne_of_lt (List.mem_range.1 hi))

/-- With more live entries than places the loop leaves the new array. -/
theorem Linked.rehash_overflow (hmask : ∀ c : UInt64, c.toNat &&& mask < cap) (olds : List (Entry K V))
    (h : Linked es lk mask cap used) (hover : cap < used + olds.countP Entry.isLive) :
    rehashLoop mask olds used es lk = none := by
  induction olds generalizing es lk used with
  | nil =>
    have := h.used_le
    simp only [List.countP_nil] at hover
    omega
  | cons e olds ih =>
    cases hk : e.key with
    | none =>
      have hdead : e.isLive = false := by simp [Entry.isLive, hk]
      simp only [List.countP_cons, hdead, Bool.false_eq_true, ↓reduceIte, Nat.add_zero] at hover
      simp only [rehashLoop, hk, Option.isNone_none, ↓reduceIte]
      exact ih h hover
    | some k =>
      have hlive : e.isLive = true := by simp [Entry.isLive, hk]
      simp only [List.countP_cons, hlive, ↓reduceIte] at hover
      simp only [rehashLoop, hk, Option.isNone_some, Bool.false_eq_true, ↓reduceIte]
      by_cases hu : used < cap
      · obtain ⟨es₁, lk₁, hlink, h₁, -⟩ := h.link e hu hlive (hmask e.code)
        rw [hlink, Option.bind_some]
        exact ih h₁ (by omega)
      · have hsz : ¬ used < es.size := by rw [h.entries_size]; exact hu
        simp only [linkEntry, hsz, ↓reduceIte, Option.bind_none]

end rehash
end Pcl
