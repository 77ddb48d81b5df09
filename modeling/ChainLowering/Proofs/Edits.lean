import ChainLowering.Proofs.Links

/-!
# Runs of edits

A store that began empty is what some calls have made of it. An edit that
puts no node below another only takes nodes out of their places and adds new
ones. Any other takes at most one node out and then puts a detached one into
a place.
-/

namespace ChainLowering

open Relation (ReflTransGen)

/-- A call that changes nodes or adds some. -/
inductive Edit
  | addNode (label : Label) (children : List NodeId)
  | cloneNode (i : NodeId)
  | newEmpty
  | newName (name : String) (src : Ref)
  | newNull (src : Ref)
  | newNumber (text : String) (src : Ref)
  | newUndefined (src : Ref)
  | newGetProp (receiver : NodeId) (name : String) (src : Ref)
  | newEq (left right : NodeId) (src : Ref)
  | newHook (cond yes no : NodeId) (src : Ref)
  | newAssign (name : String) (value : NodeId) (src : Ref)
  | newLet (name : String) (src : Ref)
  | detach (i : NodeId)
  | replaceWith (old new : NodeId)
  | addToFront (parent child : NodeId)
  | addToBack (parent child : NodeId)
  | addBefore (new old : NodeId)
  | setKind (i : NodeId) (k : Kind)
  | setMarked (i : NodeId) (value : Bool)
  | setSynthesized (i : NodeId) (value : Bool)

namespace Edit

/-- What the call needs to be in the store. A node that lends its span need not. -/
def operands : Edit → List NodeId
  | addNode _ cs => cs
  | cloneNode i | detach i | setKind i _ | setMarked i _ | setSynthesized i _ => [i]
  | newEmpty | newName .. | newNull _ | newNumber .. | newUndefined _ | newLet .. => []
  | newGetProp i _ _ | newAssign _ i _ => [i]
  | newEq i j _ | replaceWith i j | addToFront i j | addToBack i j | addBefore i j => [i, j]
  | newHook i j k _ => [i, j, k]

def apply (a : Arena) : Edit → Arena.Edited Arena
  | addNode l cs => Prod.snd <$> a.addNode l (cs.map some)
  | cloneNode i => Prod.snd <$> a.cloneNode (some i)
  | newEmpty => Prod.snd <$> a.newEmpty
  | newName name src => Prod.snd <$> a.newName name src
  | newNull src => Prod.snd <$> a.newNull src
  | newNumber text src => Prod.snd <$> a.newNumber text src
  | newUndefined src => Prod.snd <$> a.newUndefined src
  | newGetProp i name src => Prod.snd <$> a.newGetProp (some i) name src
  | newEq i j src => Prod.snd <$> a.newEq (some i) (some j) src
  | newHook i j k src => Prod.snd <$> a.newHook (some i) (some j) (some k) src
  | newAssign name i src => Prod.snd <$> a.newAssign name (some i) src
  | newLet name src => Prod.snd <$> a.newLet name src
  | detach i => .ok (a.detach (some i))
  | replaceWith old new => a.replaceWith (some old) (some new)
  | addToFront p c => a.addToFront (some p) (some c)
  | addToBack p c => a.addToBack (some p) (some c)
  | addBefore new old => a.addBefore (some new) (some old)
  | setKind i k => .ok (a.setKind (some i) k)
  | setMarked i value => .ok (a.setMarked (some i) value)
  | setSynthesized i value => .ok (a.setSynthesized (some i) value)

/-- The node that is put below another, and the other. -/
def insertion? (a : Arena) : Edit → Option (NodeId × Ref)
  | replaceWith old new | addBefore new old => some (new, a.parent (some old))
  | addToFront p c | addToBack p c => some (c, some p)
  | _ => none

/-- The store after the call, if its operands are there and it does not fault. -/
def call? (e : Edit) (a : Arena) : Option Arena :=
  if ∀ i ∈ e.operands, i < a.size then (e.apply a).toOption else none

/-- The store after calls that are all admitted where they are made. -/
def run? (admits : Edit → Arena → Bool) (es : List Edit) (a : Arena) : Option Arena :=
  es.foldlM (fun a e => if admits e a then e.call? a else none) a

/-- Any call is admitted. -/
def free (_ : Edit) (_ : Arena) : Bool := true

theorem call?_eq_some {e : Edit} {a b : Arena} :
    e.call? a = some b ↔ (∀ i ∈ e.operands, i < a.size) ∧ e.apply a = .ok b := by
  rw [call?]
  split_ifs with h
  · rw [and_iff_right h]
    cases hx : e.apply a <;> simp [Except.toOption]
  · simp [h]

/-- What each admitted call keeps, a run keeps. -/
theorem run?_keeps {P : Arena → Prop} {admits : Edit → Arena → Bool}
    (hcall : ∀ {e a b}, P a → admits e a = true → e.call? a = some b → P b) {es : List Edit}
    {a b : Arena} (ha : P a) (h : run? admits es a = some b) : P b := by
  induction es generalizing a with
  | nil => exact Option.some.inj h ▸ ha
  | cons e es ih =>
    rw [run?, List.foldlM_cons] at h
    obtain ⟨m, hm, h⟩ := Option.bind_eq_some_iff.mp h
    split_ifs at hm with he
    exact ih (hcall ha he hm) h

end Edit

namespace Arena

variable {a b m : Arena} {c i j : NodeId} {cs ds : List NodeId} {src : Ref}

/-- A change that puts no node below one that was there. -/
inductive Change (a b : Arena) : Prop
  | same (h : SameLinks a b)
  | adopts {cs : List NodeId} (h : Adopts a b cs)
  | parts {c : NodeId} (h : Parts a b c)

theorem Consistent.change (h : Consistent a) (hb : Change a b) : Consistent b := by
  cases hb with
  | same hb => exact h.sameLinks hb
  | adopts hb => exact h.adopts hb
  | parts hb => exact h.parts hb

theorem Consistent.changes (h : Consistent a) (hb : ReflTransGen Change a b) : Consistent b := by
  induction hb with
  | refl => exact h
  | tail _ hb ih => exact ih.change hb

theorem Founds.change (h : Founds a i b cs) : Change a b := .adopts h.adopts

theorem Founds.lt_size (h : Founds a i b cs) : i < b.size := by
  rw [h.index, h.size]
  exact Nat.lt_succ_self _

theorem SameLinks.changes (h : SameLinks a b) : ReflTransGen Change a b := .single (.same h)

/-! ## Builders -/

theorem exists_of_snd_ok {α : Type} {x : Edited (α × Arena)} (h : Prod.snd <$> x = .ok b) :
    ∃ i, x = .ok (i, b) := by
  cases x with
  | error e => cases h
  | ok x =>
    obtain rfl := Except.ok.inj h
    exact ⟨x.1, rfl⟩

theorem synthesize_changes {k : Kind} {text : Option String} (cs : List NodeId)
    (hcs : ∀ c ∈ cs, c < a.size) (h : Prod.snd <$> a.synthesize k text (cs.map some) src = .ok b) :
    ReflTransGen Change a b := by
  obtain ⟨i, h⟩ := exists_of_snd_ok h
  exact .single (synthesize_founds hcs h).change

theorem synthesize₂_changes {k l : Kind} {text : Option String} (next : NodeId → List NodeId)
    (hnext : ∀ i, ∀ c ∈ next i, c = i ∨ c < a.size)
    (h : Prod.snd <$>
      (a.synthesize k text [] src >>= fun x => x.2.synthesize l none ((next x.1).map some) src) =
      .ok b) :
    ReflTransGen Change a b := by
  cases hm : a.synthesize k text [] src with
  | error e => rw [hm] at h; cases h
  | ok x =>
    obtain ⟨i, m⟩ := x
    have hi : Founds a i m [] := synthesize_founds (by simp) hm
    rw [hm] at h
    refine .trans (.single hi.change) (synthesize_changes _ (fun c hc => ?_) h)
    rcases hnext i c hc with rfl | hlt
    · exact hi.lt_size
    · exact hi.size ▸ Nat.lt_succ_of_lt hlt

/-! ## Calls -/

theorem apply_changes {e : Edit} (ha : Consistent a) (he : ∀ i ∈ e.operands, i < a.size)
    (hi : e.insertion? a = none) (h : e.apply a = .ok b) : ReflTransGen Change a b := by
  cases e with
  | addNode l cs =>
    obtain ⟨i, h⟩ := exists_of_snd_ok h
    exact .single (addNode_founds cs he h).change
  | cloneNode i =>
    obtain ⟨r, h⟩ := exists_of_snd_ok h
    obtain ⟨j, -, hj⟩ := cloneNode_founds (he i List.mem_cons_self) h
    exact .single hj.change
  | newEmpty => exact synthesize_changes [] (by simp) h
  | newName => exact synthesize_changes [] (by simp) h
  | newNull => exact synthesize_changes [] (by simp) h
  | newNumber => exact synthesize_changes [] (by simp) h
  | newUndefined => exact synthesize₂_changes (fun i => [i]) (by simp) h
  | newGetProp i => exact synthesize_changes [i] he h
  | newEq i j => exact synthesize_changes [i, j] he h
  | newHook i j k => exact synthesize_changes [i, j, k] he h
  | newAssign _ v =>
      exact synthesize₂_changes (fun i => [i, v]) (by simp [he v (by simp [Edit.operands])]) h
  | newLet => exact synthesize₂_changes (fun i => [i]) (by simp) h
  | detach i =>
    obtain rfl := Except.ok.inj h
    exact .single (.parts (detach_parts ha (he i List.mem_cons_self)))
  | replaceWith | addToFront | addToBack | addBefore => cases hi
  | setKind | setMarked | setSynthesized =>
    obtain rfl := Except.ok.inj h
    refine (sameLinks_modify _ _ _ ?_ ?_).changes <;> intro n <;> rfl

theorem apply_joins {e : Edit} {r : Ref} (ha : Consistent a) (he : ∀ i ∈ e.operands, i < a.size)
    (hi : e.insertion? a = some (c, r)) (h : e.apply a = .ok b) :
    ∃ m p, r = some p ∧ (m = a ∨ ∃ d, Parts a m d) ∧ Joins m b p c := by
  cases e with
  | replaceWith old new =>
    obtain ⟨rfl, rfl⟩ := Prod.mk.inj (Option.some.inj hi)
    obtain ⟨p, hp, hparts, hjoins⟩ :=
      replaceWith_joins ha (he old (by simp [Edit.operands])) (he new (by simp [Edit.operands])) h
    exact ⟨_, p, hp, .inr ⟨old, hparts⟩, hjoins⟩
  | addToFront p c =>
    obtain ⟨rfl, rfl⟩ := Prod.mk.inj (Option.some.inj hi)
    exact ⟨a, p, rfl, .inl rfl,
      addToFront_joins (he p (by simp [Edit.operands])) (he c (by simp [Edit.operands])) h⟩
  | addToBack p c =>
    obtain ⟨rfl, rfl⟩ := Prod.mk.inj (Option.some.inj hi)
    exact ⟨a, p, rfl, .inl rfl,
      addToBack_joins (he p (by simp [Edit.operands])) (he c (by simp [Edit.operands])) h⟩
  | addBefore new old =>
    obtain ⟨rfl, rfl⟩ := Prod.mk.inj (Option.some.inj hi)
    obtain ⟨p, hp, hjoins⟩ := addBefore_joins ha (he new (by simp [Edit.operands])) h
    exact ⟨a, p, hp, .inl rfl, hjoins⟩
  | _ => cases hi

theorem Consistent.call {e : Edit} (ha : Consistent a) (h : e.call? a = some b) : Consistent b := by
  obtain ⟨he, h⟩ := Edit.call?_eq_some.mp h
  cases hi : e.insertion? a with
  | none => exact ha.changes (apply_changes ha he hi h)
  | some x =>
    obtain ⟨m, p, -, hm, hb⟩ := apply_joins ha he hi h
    rcases hm with rfl | ⟨d, hm⟩
    · exact ha.joins hb
    · exact (ha.parts hm).joins hb

theorem consistent_run {admits : Edit → Arena → Bool} {es : List Edit}
    (h : Edit.run? admits es {} = some a) : Consistent a :=
  Edit.run?_keeps (fun ha _ h => ha.call h) .empty h

/-- Whatever calls are made, a node stands among the children of its parent, once, and in no other
place. -/
theorem links_consistent {es : List Edit} (h : Edit.run? Edit.free es {} = some a) :
    (∀ c p, some c ∈ a.children (some p) ↔ a.parent (some c) = some p) ∧
      (∀ p, (a.children (some p)).Nodup) ∧
      ∀ c p q, some c ∈ a.children (some p) → some c ∈ a.children (some q) → p = q := by
  have ha := consistent_run h
  have hiff : ∀ c p, some c ∈ a.children (some p) ↔ a.parent (some c) = some p := by
    intro c p
    refine ⟨fun hc => ?_, ha.parent⟩
    obtain ⟨-, -, hp⟩ := ha.child hc
    exact hp
  refine ⟨hiff, ha.nodup, fun c p q hp hq => ?_⟩
  rw [hiff] at hp hq
  exact Option.some.inj (hp.symm.trans hq)

/-- An assignment is built and takes the place of a link, which is put back into it. -/
def sampleEdits : List Edit :=
  [.addNode { kind := .name, text := "a" } [],
    .addNode { kind := .chainProp, text := "b", chainStart := true } [0],
    .addNode { kind := .exprStmt } [1], .addNode { kind := .script } [2], .newEmpty,
    .replaceWith 1 4, .newAssign "t" 1 (some 1), .replaceWith 4 6, .setKind 1 .getProp,
    .setMarked 1 false, .cloneNode 0, .detach 0, .addToFront 1 7, .newLet "t" none, .addBefore 9 2,
    .addToBack 7 0, .newUndefined none, .setSynthesized 1 true]

theorem links_consistent_sample : ∃ a, Edit.run? Edit.free sampleEdits {} = some a ∧
    (∀ c p, some c ∈ a.children (some p) ↔ a.parent (some c) = some p) ∧
    (∀ p, (a.children (some p)).Nodup) ∧
      ∀ c p q, some c ∈ a.children (some p) → some c ∈ a.children (some q) → p = q := by
  obtain ⟨a, ha⟩ : ∃ a, Edit.run? Edit.free sampleEdits {} = some a :=
    Option.isSome_iff_exists.mp (by decide +kernel)
  exact ⟨a, ha, links_consistent ha⟩

end Arena

end ChainLowering
