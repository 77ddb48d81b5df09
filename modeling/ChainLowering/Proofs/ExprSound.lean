import ChainLowering.Proofs.Fresh
import ChainLowering.Proofs.LinkSound

/-!
# Expressions side by side

An expression and what lowering makes of it have related values. A tree on
which a chain goes on is followed through the guards to what is left of it:
either both programs stop at a link, or both arrive there.
-/

namespace ChainLowering

open Eval Grown

namespace Grown

/-! ## Temporaries that are free -/

/-- Names of temporaries, each with whether it is pending. -/
def Due.marks (ds : List Due) : Multiset (String × Bool) := ds.map fun d => (d.temp.name, d.pending)

def Temp.marks (xs : List Temp) : Multiset (String × Bool) := xs.map fun x => (x.name, true)

@[simp] theorem Due.marks_append (ds es : List Due) :
    Due.marks (ds ++ es) = Due.marks ds + Due.marks es := by
  simp [Due.marks]

@[simp] theorem Due.marks_all (c : NodeId) (xs : List Temp) :
    Due.marks (Due.all c xs) = Temp.marks xs := by
  rw [Due.marks, Due.all, List.map_map]
  rfl

@[simp] theorem Temp.marks_append (xs ys : List Temp) :
    Temp.marks (xs ++ ys) = Temp.marks xs + Temp.marks ys := by
  simp [Temp.marks]

end Grown

/-- All names differ, and only the changed program uses them. -/
structure Distinct (temps : List String) (I : Multiset (String × Bool)) : Prop where
  nodup : (I.map Prod.fst).Nodup
  temps : ∀ m ∈ I, m.1 ∈ temps

/-- The pending ones are declared in a frame and hold nothing. -/
structure World.Free (temps : List String) (f : FrameId) (W : World)
    (I : Multiset (String × Bool)) : Prop extends Distinct temps I where
  opened : ∀ s, (s, true) ∈ I → W.Open f [s]

theorem Distinct.of_le {temps : List String} {I J : Multiset (String × Bool)} (h : Distinct temps I)
    (hJ : J ≤ I) : Distinct temps J where
  nodup := Multiset.nodup_of_le (Multiset.map_le_map hJ) h.nodup
  temps m hm := h.temps m (Multiset.mem_of_le hJ hm)

namespace World.Free

variable {temps : List String} {f : FrameId} {V W : World} {I J K : Multiset (String × Bool)}
    {xs : List Temp}

theorem of_le (h : W.Free temps f I) (hJ : J ≤ I) : W.Free temps f J where
  toDistinct := h.toDistinct.of_le hJ
  opened s hs := h.opened s (Multiset.mem_of_le hJ hs)

theorem left (h : W.Free temps f (I + J)) : W.Free temps f I := h.of_le (Multiset.le_add_right _ _)

theorem right (h : W.Free temps f (I + J)) : W.Free temps f J := h.of_le (Multiset.le_add_left _ _)

theorem grown (h : W.Free temps f I) (σ : Stamps) : (W.grown σ).Free temps f I :=
  ⟨h.toDistinct, h.opened⟩

theorem names (h : W.Free temps f (I + Temp.marks xs)) : W.Open f (xs.map Temp.name) := by
  intro s hs
  obtain ⟨x, hx, rfl⟩ := List.mem_map.mp hs
  refine h.opened x.name ?_ x.name (List.mem_singleton_self _)
  exact Multiset.mem_add.mpr (.inr (Multiset.mem_coe.mpr (List.mem_map_of_mem hx)))

theorem fills (h : W.Free temps f (I + Temp.marks xs)) (hV : W.Fills f (xs.map Temp.name) V) :
    V.Free temps f I where
  opened s hs := by
    refine hV.open (h.opened s (Multiset.mem_add.mpr (.inl hs))) fun t ht hx => ?_
    obtain rfl := List.mem_singleton.mp ht
    have hn := h.nodup
    rw [Multiset.map_add, Multiset.nodup_add] at hn
    refine Multiset.disjoint_left.mp hn.2.2 (Multiset.mem_map_of_mem Prod.fst hs) ?_
    obtain ⟨x, hx, e⟩ := List.mem_map.mp hx
    exact Multiset.mem_map.mpr ⟨(x.name, true), Multiset.mem_coe.mpr (List.mem_map_of_mem hx), e⟩
  nodup := h.left.nodup
  temps := h.left.temps

theorem after (h : W.Free temps f (I + Temp.marks xs + J)) (hV : W.Fills f (xs.map Temp.name) V) :
    V.Free temps f (I + J) :=
  fills (by rwa [add_right_comm]) hV

theorem same (h : W.Free temps f I) (hV : W.Fills f [] V) : V.Free temps f I :=
  @fills temps f V W I [] (h.of_le (le_of_eq (add_zero _))) hV

end World.Free

namespace Grown

/-! ## What is known of an expression -/

/-- A tree whose chains are all lowered, and that mentions no temporary. -/
structure Ready (temps : List String) (order : List NodeId) (continued : Bool) (t : Grown) :
    Prop where
  sound : t.Sound
  names : ∀ s ∈ t.names, s ∉ temps
  ends : ∀ c ∈ t.endSet continued, c ∈ order

section
variable {temps : List String} {order : List NodeId} {b : Bool} {i : NodeId} {l : Label} {t : Grown}
    {ts : List Grown}

theorem mem_endSets {u : Grown} {c : NodeId} (hu : u ∈ ts) (hc : c ∈ u.endSet false) :
    c ∈ endSets ts := by
  obtain ⟨us, vs, rfl⟩ := List.append_of_mem hu
  rw [endSets_append, endSets_cons]
  exact Multiset.mem_add.mpr (.inr (Multiset.mem_add.mpr (.inl hc)))

namespace Ready

theorem names_of (h : Ready temps order b (node i l ts)) {u : Grown} (hu : u ∈ ts) :
    ∀ s ∈ u.names, s ∉ temps := by
  intro s hs
  refine h.names s ?_
  rw [names_node]
  exact List.mem_append_right _ (List.mem_flatMap.mpr ⟨u, hu, hs⟩)

theorem first (h : Ready temps order b (node i l (t :: ts))) :
    Ready temps order l.kind.isChain t where
  sound := (sound_node.mp h.sound).2 t List.mem_cons_self
  names := h.names_of List.mem_cons_self
  ends c hc := by
    refine h.ends c ?_
    rw [endSet_cons]
    exact Multiset.mem_add.mpr (.inl hc)

theorem rest (h : Ready temps order b (node i l (t :: ts))) {u : Grown} (hu : u ∈ ts) :
    Ready temps order false u where
  sound := (sound_node.mp h.sound).2 u (List.mem_cons_of_mem _ hu)
  names := h.names_of (List.mem_cons_of_mem _ hu)
  ends c hc := by
    refine h.ends c ?_
    rw [endSet_cons]
    exact Multiset.mem_add.mpr (.inr (Multiset.mem_add.mpr (.inl (mem_endSets hu hc))))

theorem child (h : Ready temps order b (node i l ts)) (hl : l.kind.isChain = false) {u : Grown}
    (hu : u ∈ ts) :
    Ready temps order false u where
  sound := (sound_node.mp h.sound).2 u hu
  names := h.names_of hu
  ends c hc := by
    refine h.ends c ?_
    rw [endSet_plain b i ts hl]
    exact mem_endSets hu hc

end Ready

end

/-- The statements of a body with their chains lowered, and declarations before them. -/
def lowerBody (order : List NodeId) (choice : NodeId → Choice) (ts : List Grown) : List Grown :=
  ts.flatMap fun t => (whole order choice t).statement order

/-- A body that is ready, and what lowering makes of it. -/
inductive LowersBody (temps : List String) : List Tree → List Tree → Prop
  | of {order : List NodeId} {choice : NodeId → Choice} {ts : List Grown}
      (ready : ∀ t ∈ ts, Ready temps order false t)
      (statements : ∀ t ∈ ts, t.label.kind.isChain = false)
      (distinct : Distinct temps (Due.marks (duesAll order choice ts))) :
      LowersBody temps (ts.map toTree) ((lowerBody order choice ts).map toTree)

end Grown

/-- Two programs, each at a depth of calls, and how the chains of the first are lowered in the
other. -/
structure Scene where
  change : Change
  bodies : ∀ {ts us}, LowersBody change.temps ts us → change.bodies ts us
  order : List NodeId
  choice : NodeId → Choice
  call : Caller
  call' : Caller
  depth : Nat
  depth' : Nat
  calls : Calls change depth depth' call call'

namespace Scene

variable {S : Scene} {V W : World} {fr : FrameId} {env : Env} {i : NodeId} {l : Label}
    {t o c : Grown} {ts keys args : List Grown}

/-- The programs are at their depths, and the frame of an expression is there. -/
structure Here (S : Scene) (fr : FrameId) (W : World) : Prop where
  depth : W.depth = S.depth
  depth' : W.depth' = S.depth'
  frame : fr < W.frames

theorem Here.more (h : S.Here fr W) (hV : W.Extends V) : S.Here fr V :=
  ⟨hV.depth.trans h.depth, hV.depth'.trans h.depth', Nat.lt_of_lt_of_le h.frame hV.frames⟩

section
variable (S) (fr : FrameId) (env : Env)

def Ready (continued : Bool) (t : Grown) : Prop := Grown.Ready S.change.temps S.order continued t

def Free (W : World) (I : Multiset (String × Bool)) : Prop := W.Free S.change.temps fr I

def dues (t : Grown) : Multiset (String × Bool) := Due.marks (whole S.order S.choice t).dues

def duesOf (ts : List Grown) : Multiset (String × Bool) := Due.marks (duesAll S.order S.choice ts)

def whole (t : Grown) : Grown := (Grown.whole S.order S.choice t).tree

def wholeAll (ts : List Grown) : List Grown := Grown.wholeAll S.order S.choice ts

def low (glue : NodeId → Glue) (t : Grown) : Lowering := Grown.low S.order S.choice glue t

/-- Both programs are at the end of a tree, and the changed one has kept the object of an access if
it should. -/
structure Arrives (t : Grown) (u : Option Temp) (V : World) (p p' : Value × Value) : Prop where
  pair : Pair V.stamps p p'
  this : t.label.plain.kind.isGet = false → p.2 = .undefined
  kept : ∀ z ∈ u, ⟨fr, z.name, some p'.2⟩ ∈ V.pins

def filled (glue : NodeId → Glue) (t : Grown) (u : Option Temp) : List Temp :=
  (S.low glue t).temps ++ u.toList

/-- Both programs stop in a tree that a chain goes on with, or both arrive at its end. -/
def Walks (t : Grown) : Prop :=
  ∀ (glue : NodeId → Glue) (u : Option Temp) {W : World} {γ δ : Type}
    {f : Reference → Eval γ} {g : Reference → Eval δ}
    {stop : Eval δ} {R : Stamps → γ → δ → Prop},
    (u.isSome → t.label.plain.kind.isGet = true) → S.Here fr W →
    -- `f` and `g` are what is above the tree in the two programs
    S.Free fr W (Due.marks (peel S.order S.choice t).dues + Temp.marks (S.filled glue t u)) →
    (t.label.kind.isChain = true → ∀ V, W.Fills fr ((S.filled glue t u).map Temp.name) V →
      Sim S.change V (f none) stop R) →
    (∀ V p p', W.Fills fr ((S.filled glue t u).map Temp.name) V → Arrives fr t u V p p' →
      Sim S.change V (f (some p)) (g (some p')) R) →
    Sim S.change W (reference S.call (fr :: env) t.toTree >>= f)
      (guarded S.call' (fr :: env)
        (reference S.call' (fr :: env) (keeping u (S.low glue t).rest).toTree >>= g) stop
        (S.low glue t).receivers) R

def Follows (t : Grown) : Prop := ∀ ⦃W : World⦄, S.Here fr W → S.Free fr W (S.dues t) →
  Sim S.change W (value S.call (fr :: env) t.toTree)
    (value S.call' (fr :: env) (S.whole t).toTree) Value.Related

end

/-! ## Children -/

theorem dues_le (ht : t ∈ ts) : S.dues t ≤ S.duesOf ts := by
  obtain ⟨us, vs, rfl⟩ := List.append_of_mem ht
  rw [duesOf, duesAll_append, Due.marks_append]
  refine (Multiset.le_add_left _ _).trans' ?_
  exact (Due.marks_append _ _).symm ▸ Multiset.le_add_right _ _

theorem alike_children (h : ∀ u ∈ ts, S.Follows fr env u) (hW : S.Here fr W)
    (hf : S.Free fr W (S.duesOf ts)) :
    List.Forall₂ (Alike S.change W S.call S.call' (fr :: env)) (ts.map toTree)
      ((S.wholeAll ts).map toTree) := by
  rw [wholeAll, Grown.wholeAll, List.forall₂_map_left_iff, List.map_map, List.forall₂_map_right_iff,
    List.forall₂_same]
  intro u hu σ hσ
  exact h u hu (hW.more (World.extends_grown W hσ)) ((hf.of_le (dues_le hu)).grown σ)

theorem Walks.plain (h : S.Walks fr env t) (hl : t.label.kind.isChain = false) {γ δ : Type}
    {f : Reference → Eval γ} {g : Reference → Eval δ} {R : Stamps → γ → δ → Prop} (hW : S.Here fr W)
    (hfree : S.Free fr W (S.dues t))
    (hgo : ∀ V p p', W.Fills fr [] V → Arrives fr t none V p p' →
      Sim S.change V (f (some p)) (g (some p')) R) :
    Sim S.change W (reference S.call (fr :: env) t.toTree >>= f)
      (reference S.call' (fr :: env) (S.whole t).toTree >>= g) R := by
  have hlow : S.low default t = { rest := S.whole t } := low_of_not_chain hl
  have hrun := @h default none W γ δ f g (Eval.fail .callDepth) R Bool.noConfusion hW
  rw [filled, hlow, dues_peel hl] at hrun
  refine hrun ?_ (fun hc => absurd (hl.symm.trans hc) Bool.noConfusion) hgo
  exact hfree.of_le (le_of_eq (add_zero _))

theorem Walks.follows (h : S.Walks fr env t) (hr : S.Ready false t) : S.Follows fr env t := by
  intro W hW hfree
  have hgo (V : World) (p p' : Value × Value) (ha : Arrives fr t none V p p') :
      Sim S.change V (pure (Reference.value (some p)) : Eval Value)
        (pure (Reference.value (some p')) : Eval Value) Value.Related :=
    .pure ha.pair.value
  cases hl : t.label.kind.isChain with
  | false =>
    rw [value, value, map_eq_pure_bind, map_eq_pure_bind]
    exact h.plain hl hW hfree fun V p p' _ ha => hgo V p p' ha
  | true =>
    have hwhole := whole_chain S.order S.choice hr.sound hl (hr.ends _ (id_mem_endSet hl))
    have hfilled : S.filled (S.choice t.id).glue t none = (S.low (S.choice t.id).glue t).temps :=
      List.append_nil _
    rw [dues, hwhole, Due.marks_append, Due.marks_all] at hfree
    rw [whole, hwhole, value_close, value, value, map_eq_pure_bind, map_eq_pure_bind]
    refine h (S.choice t.id).glue none (f := fun r => pure r.value) (g := fun r => pure r.value)
      Bool.noConfusion hW ?_ ?_ ?_
    · rwa [hfilled]
    · exact fun _ V _ => .pure .undefined
    · exact fun V p p' _ ha => hgo V p p' ha

/-! ## Plain accesses and calls -/

theorem walks_get (hl : l.kind.isGet = true) (hm : l.chainStart = false) (ho : S.Follows fr env o)
    (hkeys : ∀ u ∈ keys, S.Follows fr env u) : S.Walks fr env (node i l (o :: keys)) := by
  have hc : l.kind.isChain = false := not_isChain_of_isGet hl
  intro glue u W γ δ f g stop R hu hW hfree _ hgo
  have hlow : S.low glue (node i l (o :: keys)) =
      { rest := node i l (S.whole o :: S.wholeAll keys) } := by
    rw [low, low_of_not_chain (t := node i l (o :: keys)) hc, whole_get hl]
    rfl
  have hfilled : S.filled glue (node i l (o :: keys)) u = u.toList := by rw [filled, hlow]; rfl
  have hdues : Due.marks (peel S.order S.choice (node i l (o :: keys))).dues =
      S.dues o + S.duesOf keys := by
    rw [dues_peel (t := node i l (o :: keys)) hc, whole_get hl]
    exact Due.marks_append _ _
  rw [hfilled] at hfree hgo
  rw [hdues, add_assoc] at hfree
  rw [hlow, reference_plainAccess hl hm]
  change Sim S.change W _ (reference _ _ (keeping u _).toTree >>= g) R
  rw [reference_keeping hl hm, bind_assoc, bind_assoc]
  refine Sim.bind (ho hW hfree.left) fun σ hσ v v' hv => ?_
  have hWσ : S.Here fr (W.grown σ) := hW.more (World.extends_grown W hσ)
  have hkeysfree : S.Free fr (W.grown σ) (S.duesOf keys + Temp.marks u.toList) :=
    hfree.right.grown σ
  rw [bind_assoc]
  refine Sim.accessThen l u hkeysfree.names (fun z hz => ?_) hWσ.frame hv (fun V hV => ?_)
    fun V w w' hV hpins hpair => ?_
  · exact List.mem_map_of_mem (Option.mem_toList.mpr hz)
  · exact alike_children hkeys (hWσ.more hV.more) (hkeysfree.fills hV)
  · refine hgo V _ _ ((World.fills_grown hσ).trans hV) ⟨hpair, fun h => ?_, hpins⟩
    rw [label_node, Label.isGet_plain hl] at h
    cases h

theorem walks_of_results (hl : t.label.kind.isChain = false) (hk : t.label.plain.kind.isGet = false)
    (h : ∀ {W : World}, S.Here fr W → S.Free fr W (S.dues t) →
      Sim S.change W (reference S.call (fr :: env) t.toTree)
        (reference S.call' (fr :: env) (S.whole t).toTree) Results) :
    S.Walks fr env t := by
  intro glue u W γ δ f g stop R hu hW hfree _ hgo
  obtain rfl : u = none := by
    cases u with
    | none => rfl
    | some z => exact absurd (hk.symm.trans (hu rfl)) Bool.noConfusion
  have hlow : S.low glue t = { rest := S.whole t } := low_of_not_chain hl
  rw [dues_peel hl] at hfree
  rw [hlow]
  refine (h hW hfree.left).bind fun σ hσ r r' hr => ?_
  obtain ⟨hw⟩ := hr
  exact hgo (W.grown σ) _ _ (World.fills_grown hσ)
    ⟨⟨hw, .undefined⟩, fun _ => rfl, fun _ hz => absurd hz (Option.not_mem_none _)⟩

section
variable (hk : l.kind = .call) (hm : l.chainStart = false) (hc : S.Walks fr env c)
    (hargs : ∀ u ∈ args, S.Follows fr env u)
include hk hm hc hargs

theorem results_call (hl : c.label.kind.isChain = false) (hW : S.Here fr W)
    (hfree : S.Free fr W (S.dues (node i l (c :: args)))) :
    Sim S.change W (reference S.call (fr :: env) (node i l (c :: args)).toTree)
      (reference S.call' (fr :: env) (S.whole (node i l (c :: args))).toTree) Results := by
  have hplain := Label.kind_plain_call hk
  have hchain : l.kind.isChain = false := by rw [hk]; rfl
  have hwhole : Grown.whole S.order S.choice (node i l (c :: args)) =
      ⟨duesAll S.order S.choice (c :: args), node i l (S.whole c :: S.wholeAll args)⟩ :=
    whole_calm ⟨hchain, by rw [hk]; rfl,
      fun _ t ht => by obtain rfl := Option.some.inj ht; exact bottom_of hl⟩
  have hdues : S.dues (node i l (c :: args)) = S.dues c + S.duesOf args := by
    rw [dues, hwhole]
    exact Due.marks_append _ _
  have hnote (v : Value) : noteCallee l c.toTree v = pure () :=
    noteCallee_none (by rw [callForm?_plain hchain, hl]; rfl) v
  have hnote' (v : Value) : noteCallee l (S.whole c).toTree v = pure () := by
    refine noteCallee_none ?_ v
    rw [callForm?_plain hchain, whole, label_whole _ _ (bottom_of hl), hl]
    rfl
  rw [hdues] at hfree
  rw [whole, hwhole, toTree_node, toTree_node, List.map_cons, List.map_cons, reference_call hplain,
    reference_call hplain]
  refine hc.plain hl hW hfree.left fun V p p' hV ha => ?_
  rw [through_plain hchain hm, through_plain hchain hm, Option.getD_some, Option.getD_some, hnote,
    hnote', pure_bind, pure_bind]
  have hV' := hW.more hV.more
  exact .apply S.calls hV'.depth hV'.depth' ha.pair (alike_children hargs hV' (hfree.right.same hV))

theorem results_close (hs : S.Ready false c) (hl : c.label.kind.isChain = true)
    (hget : c.label.plain.kind.isGet = false) (hW : S.Here fr W)
    (hfree : S.Free fr W (S.dues (node i l (c :: args)))) :
    Sim S.change W (reference S.call (fr :: env) (node i l (c :: args)).toTree)
      (reference S.call' (fr :: env) (S.whole (node i l (c :: args))).toTree) Results := by
  have hplain := Label.kind_plain_call hk
  have hchain : l.kind.isChain = false := by rw [hk]; rfl
  have hguards : (S.low (S.choice c.id).glue c).guards ≠ [] := guards_low hs.sound hl
  have hfilled : S.filled (S.choice c.id).glue c none = (S.low (S.choice c.id).glue c).temps :=
    List.append_nil _
  have hwhole :=
    whole_callee_other S.order S.choice i args hk hs.sound hl (hs.ends _ (id_mem_endSet hl)) hget
  change _ = Closed.mk (_ ++ Due.all _ (S.low _ _).temps ++ _)
    (node i l ((S.low _ _).close :: S.wholeAll args)) at hwhole
  rw [dues, hwhole, Due.marks_append, Due.marks_append, Due.marks_all, ← hfilled] at hfree
  rw [whole, hwhole, toTree_node, toTree_node, List.map_cons, List.map_cons, reference_call hplain,
    reference_call hplain, reference_close hguards, bind_map_left, value_close_bind]
  have hnote (v : Value) : noteCallee l c.toTree v = pure () :=
    noteCallee_none (by rw [callForm?_plain hchain, hget, Bool.and_false]; rfl) v
  have hnote' (v : Value) : noteCallee l (S.low (S.choice c.id).glue c).close.toTree v =
      pure () := by
    refine noteCallee_none ?_ v
    rw [callForm?_plain hchain, label_close hguards]
    rfl
  -- the object of the callee is lost in both programs, also where the chain ended early
  have happly {V : World} {p p' : Value × Value}
    (hV : W.Fills fr ((S.filled (S.choice c.id).glue c none).map Temp.name) V)
      (hp : Pair V.stamps p p') : Sim S.change V (apply S.call (fr :: env) (args.map toTree) p)
        (apply S.call' (fr :: env) ((S.wholeAll args).map toTree) p') Results := by
    have hV' := hW.more hV.more
    refine .apply S.calls hV'.depth hV'.depth' hp (alike_children hargs hV' ?_)
    exact (World.Free.after hfree hV).right
  refine hc (S.choice c.id).glue none Bool.noConfusion hW hfree.left (fun _ V hV => ?_)
    fun V p p' hV ha => ?_
  · rw [through_plain hchain hm, through_plain hchain hm, hnote, hnote', pure_bind, pure_bind]
    exact happly hV ⟨.undefined, .undefined⟩
  · rw [through_plain hchain hm, through_plain hchain hm, hnote, hnote', pure_bind, pure_bind]
    exact happly hV ⟨ha.pair.value, by rw [Option.getD_some, ha.this hget]; exact .undefined⟩

theorem results_member (hs : S.Ready false c) (hl : c.label.kind.isChain = true)
    (hget : c.label.plain.kind.isGet = true) (hW : S.Here fr W)
    (hfree : S.Free fr W (S.dues (node i l (c :: args)))) :
    Sim S.change W (reference S.call (fr :: env) (node i l (c :: args)).toTree)
      (reference S.call' (fr :: env) (S.whole (node i l (c :: args))).toTree) Results := by
  have hplain := Label.kind_plain_call hk
  have hchain : l.kind.isChain = false := by rw [hk]; rfl
  have hwhole :=
    whole_callee_get S.order S.choice i args hk hs.sound hl (hs.ends _ (id_mem_endSet hl)) hget
  have hform : callForm? l c.toTree = some .calledChain := by
    rw [callForm?_plain hchain, hl, hget]; rfl
  change _ = Closed.mk
    (_ ++ Due.all _ (S.filled (S.choice c.id).glue c (some (S.choice c.id).this)) ++ _) _ at hwhole
  rw [dues, hwhole, Due.marks_append, Due.marks_append, Due.marks_all] at hfree
  rw [whole, hwhole, toTree_node, List.map_cons, reference_call hplain,
    reference_member _ _ _ hk hm, value_close_bind]
  refine hc (S.choice c.id).glue (some (S.choice c.id).this) (fun _ => hget)
    hW hfree.left (fun _ V hV => ?_) fun V p p' hV ha => ?_
  -- nothing is found where the chain ended early, and the first program fails for it
  · rw [through_plain hchain hm]
    exact .spoiled (spoils_apply S.calls hform rfl)
  · have hV' := hW.more hV.more
    rw [through_plain hchain hm]
    refine .callWithObject S.calls hV'.depth hV'.depth' hform ha.pair (fun hfit => ?_)
      (ha.kept _ rfl) (alike_children hargs hV' ?_)
    · exact CallForm.isNullish_of_fits hfit
    · exact (World.Free.after hfree hV).right

theorem walks_call (hs : S.Ready false c) : S.Walks fr env (node i l (c :: args)) := by
  have hplain := Label.kind_plain_call hk
  refine walks_of_results (t := node i l (c :: args)) (by rw [label_node, hk]; rfl)
    (by rw [label_node, hplain]; rfl) ?_
  intro W hW hfree
  cases hl : c.label.kind.isChain with
  | false => exact results_call hk hm hc hargs hl hW hfree
  | true =>
    cases hget : c.label.plain.kind.isGet with
    | false => exact results_close hk hm hc hargs hs hl hget hW hfree
    | true => exact results_member hk hm hc hargs hs hl hget hW hfree

end

end Scene

end ChainLowering
