import ChainLowering.Proofs.ExprSound

/-!
# Chains side by side

One link more on a tree that both programs walk alike. A marked link puts a
guard before what is left: the changed program keeps the value it has come
to, tests it, and goes on with what it has kept.
-/

namespace ChainLowering

open Eval Grown

/-! ## Links of a chain -/

namespace Eval

section
variable (call : Caller) (env : Env)

/-- What a link that is followed makes of the reference before it. -/
def follow (l : Label) (c : Tree) (args : List Tree) (p : Value × Value) : Eval Reference :=
  if l.plain.kind.isGet then access call env l args p.1 else noteCallee l c p.1 >>= fun _ =>
    apply call env args p

/-- The same for a link that is lowered, which may keep its object. -/
def goOn (u : Option Temp) (l : Label) (args : List Tree) (r : Reference) : Eval Reference :=
  if l.plain.kind.isGet then Temp.kept env u r.value >>= fun _ => access call env l args r.value
  else apply call env args (r.getD (.undefined, .undefined))

end

variable {call : Caller} {env : Env} {l : Label} {o : Tree} {ts : List Tree} {u : Option Temp}
    {i : NodeId} {x : Grown}
  {args : List Grown}

theorem plain_call (hl : l.kind.isChain = true) (hget : l.plain.kind.isGet = false) :
    l.plain.kind = .call := by
  change (l.kind.plain?.getD l.kind).isGet = false at hget
  change l.kind.plain?.getD l.kind = .call
  revert hl hget
  cases l.kind <;> decide

theorem reference_link (hl : l.kind.isChain = true) : reference call env (.of l (o :: ts)) =
    reference call env o >>= through l (follow call env l o ts) := by
  unfold follow
  cases hget : l.plain.kind.isGet with
  | true => exact reference_access hget
  | false => exact reference_call (plain_call hl hget)

theorem reference_goOn (hl : l.kind.isChain = true) (hx : x.label.kind.isChain = false)
    (hu : u.isSome → l.plain.kind.isGet = true) :
    reference call env (keeping u (node i l.plain (x :: args))).toTree =
      reference call env x.toTree >>= goOn call env u l (args.map toTree) := by
  unfold goOn
  cases hget : l.plain.kind.isGet with
  | true =>
    rw [reference_keeping hget rfl, value, bind_map_left]
    simp only [access_plain, if_pos]
  | false =>
    obtain rfl : u = none := by
      cases u with
      | none => rfl
      | some z => exact absurd (hget.symm.trans (hu rfl)) Bool.noConfusion
    have hnote (v : Value) : noteCallee l.plain x.toTree v = pure () :=
      noteCallee_none (by rw [callForm?_plain (isChain_plain l), hx]; rfl) v
    rw [keeping_none, toTree_node, List.map_cons,
      reference_call (by rw [Label.plain_plain, plain_call hl hget])]
    refine congrArg (reference call env x.toTree >>= ·) (funext fun r => ?_)
    rw [through_plain (isChain_plain l) rfl, hnote, pure_bind]
    rfl

end Eval

namespace Scene

variable {S : Scene} {V W : World} {fr : FrameId} {env : Env} {i : NodeId} {l : Label} {t : Grown}
    {args : List Grown}
  {p p' : Value × Value} {u : Option Temp} {γ δ : Type} {f : Reference → Eval γ}
    {g : Reference → Eval δ}
  {R : Stamps → γ → δ → Prop}

@[simp] theorem filled_none (glue : NodeId → Glue) (t : Grown) :
    S.filled glue t none = (S.low glue t).temps := List.append_nil _

theorem goes_on (hW : S.Here fr W) (hl : l.kind.isChain = true)
    (hform : l.plain.kind = .call → callForm? l t.toTree = none)
    (hu : u.isSome → l.plain.kind.isGet = true) (hv : p.1.Related W.stamps p'.1)
    (hthis : l.plain.kind = .call → p.2.Related W.stamps p'.2)
    (hargs : ∀ a ∈ args, S.Follows fr env a)
    (hfree : S.Free fr W (S.duesOf args + Temp.marks u.toList))
    (hgo : ∀ V q q', W.Fills fr (u.toList.map Temp.name) V →
      Arrives fr (node i l (t :: args)) u V q q' → Sim S.change V (f (some q)) (g (some q')) R) :
    Sim S.change W (follow S.call (fr :: env) l t.toTree (args.map toTree) p >>= f)
      (goOn S.call' (fr :: env) u l ((S.wholeAll args).map toTree) (some p') >>= g) R := by
  unfold follow goOn
  cases hget : l.plain.kind.isGet with
  | true =>
    rw [if_pos rfl, if_pos rfl, bind_assoc]
    refine .accessThen l u hfree.names (fun z hz => List.mem_map_of_mem (Option.mem_toList.mpr hz))
      hW.frame hv
      (fun V hV => alike_children hargs (hW.more hV.more) (hfree.fills hV))
        fun V w w' hV hpins hpair => ?_
    refine hgo V _ _ hV ⟨hpair, fun h => ?_, hpins⟩
    exact absurd (hget.symm.trans h) Bool.noConfusion
  | false =>
    obtain rfl : u = none := by
      cases u with
      | none => rfl
      | some z => exact absurd (hget.symm.trans (hu rfl)) Bool.noConfusion
    have hcall := plain_call hl hget
    rw [if_neg Bool.false_ne_true, if_neg Bool.false_ne_true,
      noteCallee_none (hform hcall), pure_bind]
    refine (Sim.apply S.calls hW.depth hW.depth' ⟨hv, hthis hcall⟩
      (alike_children hargs hW hfree.left)).bind
      fun σ hσ r r' hr => ?_
    obtain ⟨hr⟩ := hr
    exact hgo _ _ _ (World.fills_grown hσ)
      ⟨⟨hr, .undefined⟩, fun _ => rfl, fun _ hz => absurd hz (Option.not_mem_none _)⟩

/-! ## Links that are not marked -/

section
variable (hl : l.kind.isChain = true) (ht : S.Walks fr env t) (hs : t.Sound)
    (hargs : ∀ a ∈ args, S.Follows fr env a)
include hl ht hs hargs

theorem walks_unmarked (hm : l.chainStart = false) : S.Walks fr env (node i l (t :: args)) := by
  intro glue u W γ δ f g stop R hu hW hfree hstop hgo
  have hlow : S.low glue (node i l (t :: args)) =
      { S.low glue t with rest := node i l.plain ((S.low glue t).rest :: S.wholeAll args) } :=
    low_unmarked hl hm
  have hfilled : S.filled glue (node i l (t :: args)) u = (S.low glue t).temps ++ u.toList := by
    rw [filled, hlow]
  have hreceivers : (S.low glue (node i l (t :: args))).receivers = (S.low glue t).receivers := by
    rw [hlow]; rfl
  have hrest : (S.low glue (node i l (t :: args))).rest =
      node i l.plain ((S.low glue t).rest :: S.wholeAll args) := by rw [hlow]
  have hform : callForm? l t.toTree = none := by rw [callForm?_chain hl, hm]; rfl
  have hplain : (S.low glue t).rest.label.kind.isChain = false := (receivable_low hs).1
  rw [label_node] at hu
  rw [hfilled] at hfree hstop hgo
  rw [dues_chain hl, Due.marks_append, Temp.marks_append, add_add_add_comm] at hfree
  have htemps : (S.low glue t).temps.map Temp.name ⊆
      ((S.low glue t).temps ++ u.toList).map Temp.name :=
    List.map_subset _ (List.subset_append_left _ _)
  rw [toTree_node, List.map_cons, reference_link hl, bind_assoc, hreceivers, hrest,
    reference_goOn hl hplain hu, bind_assoc]
  -- the tree below is walked first; this link is then what both programs go on with
  refine ht glue none Bool.noConfusion hW ?_ (fun _ V hV => ?_) fun V p p' hV ha => ?_
  · rw [filled_none]
    exact hfree.left
  · rw [filled_none] at hV
    rw [through_none hl, pure_bind]
    exact hstop hl V (hV.subset htemps)
  · rw [filled_none] at hV
    rw [through_unmarked hm]
    refine goes_on (i := i) (hW.more hV.more) hl (fun _ => hform) hu ha.pair.value (fun _ =>
      ha.pair.this) hargs ?_ fun V' q q' hV' ha' => ?_
    · exact (World.Free.after hfree hV).right
    · refine hgo V' q q' ((hV.subset htemps).trans (hV'.subset ?_)) ha'
      exact List.map_subset _ (List.subset_append_right _ _)

/-! ## Marked links -/

theorem walks_marked (hm : l.chainStart = true)
    (hget : (t.label.plain.kind.isGet && decide (l.plain.kind = .call)) = false) :
    S.Walks fr env (node i l (t :: args)) := by
  intro glue u W γ δ f g stop R hu hW hfree hstop hgo
  obtain ⟨z, hz⟩ : ∃ z, z = (glue i).saved.value := ⟨_, rfl⟩
  have hlow : S.low glue (node i l (t :: args)) = ⟨(S.low glue t).temps ++ [z],
      (S.low glue t).guards ++ [⟨glue i, z.keep (S.low glue t).rest⟩],
      node i l.plain (z.use :: S.wholeAll args)⟩ :=
    hz ▸ low_marked hs hl hm hget
  have hfilled : S.filled glue (node i l (t :: args)) u =
      (S.low glue t).temps ++ ([z] ++ u.toList) := by
    rw [filled, hlow, List.append_assoc]
  have hreceivers : (S.low glue (node i l (t :: args))).receivers =
      (S.low glue t).receivers ++ [(z.keep (S.low glue t).rest).toTree] := by
    rw [hlow, Lowering.receivers, List.map_append]
    rfl
  have hrest : (S.low glue (node i l (t :: args))).rest =
      node i l.plain (z.use :: S.wholeAll args) := by rw [hlow]
  -- a call of a member has a lemma of its own, so what is called here needs no object
  have hother : l.plain.kind = .call → t.label.plain.kind.isGet = false := by
    intro hc
    simpa [hc] using hget
  have hform : l.plain.kind = .call → callForm? l t.toTree = none := fun hc => by
    rw [callForm?_chain hl, hother hc, Bool.and_false]
    rfl
  rw [label_node] at hu
  rw [hfilled] at hfree hstop hgo
  have hfree :
    S.Free fr W (Due.marks (peel S.order S.choice t).dues + Temp.marks (S.low glue t).temps +
      (S.duesOf args + Temp.marks u.toList + Temp.marks [z])) := by
    rw [dues_chain hl, Due.marks_append, Temp.marks_append, Temp.marks_append] at hfree
    convert hfree using 1
    rw [duesOf]
    abel
  have htemps : (S.low glue t).temps.map Temp.name ⊆
      ((S.low glue t).temps ++ ([z] ++ u.toList)).map Temp.name :=
    List.map_subset _ (List.subset_append_left _ _)
  have hz' : [z].map Temp.name ⊆ ((S.low glue t).temps ++ ([z] ++ u.toList)).map Temp.name := by
    refine List.map_subset _ ?_
    simp
  have hu' : u.toList.map Temp.name ⊆ ((S.low glue t).temps ++
      ([z] ++ u.toList)).map Temp.name := by
    refine List.map_subset _ ?_
    simp
  rw [toTree_node, List.map_cons, reference_link hl, bind_assoc, hreceivers, guarded_append,
    guarded_keep, hrest, reference_goOn hl rfl hu, bind_assoc, reference_use, bind_map_left]
  refine ht glue none Bool.noConfusion hW ?_ (fun _ V hV => ?_) fun V p p' hV ha => ?_
  · rw [filled_none]
    exact hfree.left
  · rw [filled_none] at hV
    rw [through_none hl, pure_bind]
    exact hstop hl V (hV.subset htemps)
  · rw [filled_none] at hV
    have hV' := hW.more hV.more
    have hopen : S.Free fr V (S.duesOf args + Temp.marks u.toList + Temp.marks [z]) :=
      (World.Free.after hfree hV).right
    rw [through_marked hl hm]
    -- `z` gets the receiver before it is tested, so both branches begin with the pin
    refine .assignOpen hopen.names (List.mem_singleton_self _) hV'.frame ?_
    have hpin : V.Fills fr ([z].map Temp.name) (V.pin ⟨fr, z.name, some p'.1⟩) :=
      World.fills_pin (List.mem_singleton_self _) _
    have hsince := (hV.subset htemps).trans (hpin.subset hz')
    change Sim S.change _ _
      (if p'.1.isNullish then stop else variableOf (fr :: env) z.name >>= fun v =>
      goOn S.call' (fr :: env) u l ((S.wholeAll args).map toTree) (plain v) >>= g) R
    rw [ha.pair.value.isNullish_eq]
    cases p.1.isNullish with
    | true =>
      rw [if_pos rfl, if_pos rfl, pure_bind]
      exact hstop hl _ hsince
    | false =>
      rw [if_neg Bool.false_ne_true, if_neg Bool.false_ne_true]
      refine .readTemp List.mem_cons_self ?_
      refine goes_on (i := i) (hV'.more hpin.more) hl hform hu ha.pair.value (fun hc => ?_)
        hargs (hopen.fills hpin) fun V' q q' hV' ha' => ?_
      · rw [ha.this (hother hc)]
        exact .undefined
      · exact hgo V' q q' (hsince.trans (hV'.subset hu')) ha'

theorem walks_member (hm : l.chainStart = true) (hc : l.plain.kind = .call)
    (hget : t.label.plain.kind.isGet = true) :
    S.Walks fr env (node i l (t :: args)) := by
  intro glue u W γ δ f g stop R hu hW hfree hstop hgo
  obtain ⟨y, z, dot, hy, hz, hdot⟩ : ∃ y z dot, y = (glue i).saved.this ∧ z = (glue i).saved.value ∧
      dot = (glue i).saved.dot :=
    ⟨_, _, _, rfl, rfl, rfl⟩
  have hlow : S.low glue (node i l (t :: args)) = ⟨(S.low glue t).temps ++ [y, z],
      (S.low glue t).guards ++ [⟨glue i, z.keep (keeping (some y) (S.low glue t).rest)⟩],
      node i l.plain
        (node dot (.made .getProp (some "call") z.src) [z.use] :: y.use :: S.wholeAll args)⟩ := by
    rw [hy, hz, hdot]
    exact low_member hs hl hm hc hget
  have hnotGet : l.plain.kind.isGet = false := by rw [hc]; rfl
  obtain rfl : u = none := by
    cases u with
    | none => rfl
    | some z => exact absurd (hnotGet.symm.trans (hu rfl)) Bool.noConfusion
  have hreceivers : (S.low glue (node i l (t :: args))).receivers =
      (S.low glue t).receivers ++ [(z.keep (keeping (some y) (S.low glue t).rest)).toTree] := by
    rw [hlow, Lowering.receivers, List.map_append]
    rfl
  have hrest : (S.low glue (node i l (t :: args))).rest =
      node i l.plain (node dot (.made .getProp (some "call") z.src) [z.use] :: y.use ::
        S.wholeAll args) := by rw [hlow]
  have hform : callForm? l t.toTree = some .optionalMember := by
    rw [callForm?_chain hl, hm, hget]; rfl
  have hfilled : S.filled glue (node i l (t :: args)) none = S.filled glue t (some y) ++ [z] := by
    rw [filled_none, hlow, filled, List.append_assoc]
    rfl
  rw [hfilled] at hfree hstop hgo
  have hfree :
    S.Free fr W (Due.marks (peel S.order S.choice t).dues + Temp.marks (S.filled glue t (some y)) +
      (S.duesOf args + Temp.marks [z])) := by
    rw [dues_chain hl, Due.marks_append, Temp.marks_append, add_add_add_comm] at hfree
    exact hfree
  have htemps : (S.filled glue t (some y)).map Temp.name ⊆
      (S.filled glue t (some y) ++ [z]).map Temp.name :=
    List.map_subset _ (List.subset_append_left _ _)
  have hz' : [z].map Temp.name ⊆ (S.filled glue t (some y) ++ [z]).map Temp.name :=
    List.map_subset _ (List.subset_append_right _ _)
  rw [toTree_node, List.map_cons, reference_link hl, bind_assoc, hreceivers, guarded_append,
    guarded_keep, hrest, keeping_none, reference_member _ _ _ (l := l.plain) hc rfl, bind_assoc]
  -- the access below keeps its object in `y`, and its value goes to `z`
  refine ht glue (some y) (fun _ => hget) hW hfree.left (fun _ V hV => ?_) fun V p p' hV ha => ?_
  · rw [through_none hl, pure_bind]
    exact hstop hl V (hV.subset htemps)
  · have hV' := hW.more hV.more
    have hopen : S.Free fr V (S.duesOf args + Temp.marks [z]) := (World.Free.after hfree hV).right
    rw [through_marked hl hm]
    refine .assignOpen hopen.names (List.mem_singleton_self _) hV'.frame ?_
    have hpin : V.Fills fr ([z].map Temp.name) (V.pin ⟨fr, z.name, some p'.1⟩) :=
      World.fills_pin (List.mem_singleton_self _) _
    have hsince := (hV.subset htemps).trans (hpin.subset hz')
    have hsame : (Reference.value (some p')).isNullish = p.1.isNullish := ha.pair.value.isNullish_eq
    rw [hsame]
    cases hn : p.1.isNullish with
    | true =>
      rw [if_pos rfl, if_pos rfl, pure_bind]
      exact hstop hl _ hsince
    | false =>
      rw [if_neg Bool.false_ne_true, if_neg Bool.false_ne_true]
      refine .readUse List.mem_cons_self ?_
      rw [follow, hnotGet, if_neg Bool.false_ne_true]
      have hthere := hV'.more hpin.more
      refine (Sim.callWithObject S.calls hthere.depth hthere.depth' hform ha.pair (fun _ => hn)
        (List.mem_cons_of_mem _ (ha.kept _ rfl))
          (alike_children hargs hthere (hopen.fills hpin))).bind fun σ hσ r r' hr => ?_
      obtain ⟨hr⟩ := hr
      refine hgo _ _ _ (hsince.trans (World.fills_grown hσ)) ⟨⟨hr, .undefined⟩, fun _ => rfl, ?_⟩
      exact fun _ hz => absurd hz (Option.not_mem_none _)

theorem walks_link : S.Walks fr env (node i l (t :: args)) := by
  cases hm : l.chainStart with
  | false => exact walks_unmarked hl ht hs hargs hm
  | true =>
    cases hget : t.label.plain.kind.isGet && decide (l.plain.kind = .call) with
    | false => exact walks_marked hl ht hs hargs hm hget
    | true =>
      obtain ⟨hget, hc⟩ := Bool.and_eq_true_iff.mp hget
      exact walks_member hl ht hs hargs hm (of_decide_eq_true hc) hget

end

end Scene

end ChainLowering
