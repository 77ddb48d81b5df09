import ChainLowering.Proofs.OperatorSound
import ChainLowering.Proofs.Printing

/-!
# Statements side by side

The changed program declares the temporaries of a statement right before it.
So they are free when the statement is run, and what is run after it has
other temporaries. A body is run in a new frame, where nothing is declared.
-/

namespace ChainLowering

open Eval Grown

/-! ## Declarations of temporaries -/

namespace World

def declares (W : World) (f : FrameId) (xs : List Temp) : World :=
  xs.foldl (fun W x => W.pin ⟨f, x.name, none⟩) W

variable {W : World} {f : FrameId} {xs : List Temp} {p : Pin} {temps : List String}
    {I J : Multiset (String × Bool)}

theorem mem_declares : p ∈ (W.declares f xs).pins ↔
    (∃ x ∈ xs, p = ⟨f, x.name, none⟩) ∨ p ∈ W.pins := by
  induction xs generalizing W with
  | nil => simp [declares]
  | cons x xs ih =>
    have h := @ih (W.pin ⟨f, x.name, none⟩)
    rw [declares] at h ⊢
    rw [List.foldl_cons, h, pins_pin, List.mem_cons]
    simp only [List.mem_cons, exists_eq_or_imp]
    exact or_left_comm.trans or_assoc.symm

theorem extends_declares (W : World) (f : FrameId) (xs : List Temp) :
    W.Extends (W.declares f xs) := by
  induction xs generalizing W with
  | nil => exact .refl W
  | cons x xs ih => exact (extends_pin W _).trans (ih _)

/-- None of the temporaries is declared in a frame. -/
structure Fresh (temps : List String) (f : FrameId) (W : World) (I : Multiset (String × Bool)) :
    Prop extends Distinct temps I where
  unpinned : ∀ p ∈ W.pins, p.frame = f → p.name ∉ I.map Prod.fst

/-- What is declared is free, and the rest is fresh as before. -/
theorem Fresh.declares (h : W.Fresh temps f (I + J))
    (hI : ∀ s, (s, true) ∈ I → ∃ x ∈ xs, x.name = s) (hxs : ∀ x ∈ xs, x.name ∈ I.map Prod.fst) :
    (W.declares f xs).Free temps f I ∧ (W.declares f xs).Fresh temps f J := by
  have hn := h.nodup
  rw [Multiset.map_add, Multiset.nodup_add] at hn
  have hp := h.unpinned
  simp only [Multiset.map_add, Multiset.mem_add, not_or] at hp
  refine ⟨⟨h.toDistinct.of_le (Multiset.le_add_right _ _), fun s hs t ht => ?_⟩,
    ⟨h.toDistinct.of_le (Multiset.le_add_left _ _), fun p hmem hf => ?_⟩⟩
  -- names do not occur twice, so a pin with a name of `I` was declared just now
  · obtain rfl := List.mem_singleton.mp ht
    obtain ⟨x, hx, rfl⟩ := hI t hs
    refine ⟨mem_declares.mpr (.inl ⟨x, hx, rfl⟩), fun p hmem hf hname => ?_⟩
    rcases mem_declares.mp hmem with ⟨y, -, rfl⟩ | hmem
    · rfl
    · exact absurd (Multiset.mem_map_of_mem Prod.fst hs) (hname ▸ (hp p hmem hf).1)
  · rcases mem_declares.mp hmem with ⟨x, hx, rfl⟩ | hmem
    · exact fun hJ => Multiset.disjoint_left.mp hn.2.2 (hxs x hx) hJ
    · exact (hp p hmem hf).2

end World

section
variable {α β : Type} {P : Change} {W : World} {Q : Stamps → α → β → Prop} {x : Eval α}
    {fr : FrameId} {env : Env} {xs : List Temp}
  {k : Unit → Eval β} {call : Caller} {zs : List (Eval Completion)} {ts us : List Tree}

theorem Sim.declareTemps (hx : ∀ x ∈ xs, x.name ∈ P.temps) (hf : fr < W.frames)
    (hfree : ∀ p ∈ W.pins, p.frame = fr → (∃ x ∈ xs, x.name = p.name) → p.value = none)
    (h : Sim P (W.declares fr xs) x (k ()) Q) :
    Sim P W x ((xs.forM fun x => Eval.declare (fr :: env) x.name .undefined) >>= k) Q := by
  induction xs generalizing W with
  | nil => exact h
  | cons z xs ih =>
    obtain ⟨hz, hxs⟩ := List.forall_mem_cons.mp hx
    rw [List.forM_eq_forM, List.forM_cons, bind_assoc]
    refine .declareTemp hz hf (fun p hp hpf hpn => hfree p hp hpf ⟨z, List.mem_cons_self, hpn.symm⟩)
      (ih hxs hf ?_ h)
    intro p hp hpf hpn
    rcases List.mem_cons.mp hp with rfl | hp
    · rfl
    · obtain ⟨y, hy, e⟩ := hpn
      exact hfree p hp hpf ⟨y, List.mem_cons_of_mem _ hy, e⟩

namespace Eval

theorem exec_declaration (z : Temp) :
    exec call env z.declaration.toTree = declare env z.name .undefined >>= fun _ =>
      pure .normal := by
  rw [Temp.declaration, toTree_node, Tree.of, exec]
  rfl

theorem inOrder_normal (z : Eval Unit) :
    inOrder ((z >>= fun _ => pure .normal) :: zs) = z >>= fun _ => inOrder zs := by
  rw [inOrder, bind_assoc]
  rfl

theorem inOrder_declarations (xs : List Temp) :
    inOrder (((xs.map Temp.declaration).map toTree).map (exec call env) ++ zs) = (xs.forM fun x =>
      declare env x.name .undefined) >>= fun _ => inOrder zs := by
  induction xs with
  | nil => rfl
  | cons x xs ih =>
    rw [List.map_cons, List.map_cons, List.map_cons, List.cons_append, exec_declaration,
      inOrder_normal, ih, List.forM_eq_forM, List.forM_cons, bind_assoc]

/-! ## Statements -/

theorem hoist_cons (t : Tree) (ts : List Tree) :
    hoist env (t :: ts) = hoist env [t] >>= fun _ => hoist env ts := by
  rw [hoist, hoist, List.forM_eq_forM, List.forM_cons, List.forM_cons, bind_assoc]
  rfl

theorem hoist_append (ts us : List Tree) :
    hoist env (ts ++ us) = hoist env ts >>= fun _ => hoist env us := by
  induction ts with
  | nil => rfl
  | cons t ts ih => rw [List.cons_append, hoist_cons, ih, hoist_cons t ts, bind_assoc]

theorem hoist_declarations (xs : List Temp) :
    hoist env ((xs.map Temp.declaration).map toTree) = pure () := by
  induction xs with
  | nil => rfl
  | cons x xs ih =>
    rw [List.map_cons, List.map_cons, hoist_cons, ih]
    rfl

theorem hoist_function {l : Label} (hk : l.kind = .function) : hoist env [.of l ts] =
    closure env (fun i => ts.getD i .absent) >>= fun v =>
    declare env (ts.getD 0 .absent).text v := by
  rw [hoist, List.forM_eq_forM, List.forM_cons]
  simp [Tree.of, hk]

theorem hoist_other {l : Label} (hk : l.kind ≠ .function) : hoist env [.of l ts] = pure () := by
  rw [hoist, List.forM_eq_forM, List.forM_cons]
  simp [Tree.of, hk]

variable {l : Label}

theorem exec_block (hk : l.kind = .block) :
    exec call env (.of l ts) = innerEnv env [] >>= fun env => execBody call env ts := by
  rw [Tree.of, exec, hk]
  have hrange : (List.range ts.length).map (fun i => ts.getD i .absent) = ts :=
    Tree.children_of l ts
  refine congrArg (innerEnv env [] >>= ·) (funext fun env => ?_)
  rw [hrange, execBody]
  refine congrArg (hoist env ts >>= ·) (funext fun _ => congrArg inOrder ?_)
  conv_rhs => rw [← hrange, List.map_map]
  rfl

theorem exec_expr (hk : l.kind = .exprStmt) :
    exec call env (.of l ts) = value call env (ts.getD 0 .absent) >>= fun _ => pure .normal := by
  rw [Tree.of, exec, hk]

theorem exec_declares (hk : l.kind.isDeclaration = true) :
    exec call env (.of l ts) = ts.forM (declareOne call env) >>= fun _ => pure .normal := by
  have hrange : (List.range ts.length).map (fun i => ts.getD i .absent) = ts :=
    Tree.children_of l ts
  have hkinds : l.kind = .varDecl ∨ l.kind = .letDecl ∨ l.kind = .constDecl := by
    revert hk
    cases l.kind <;> decide
  rw [Tree.of, exec]
  rcases hkinds with hk | hk | hk <;> rw [hk, hrange]

theorem exec_return (hk : l.kind = .returnStmt) : exec call env (.of l ts) =
    if (ts.getD 0 .absent).isAbsent then pure (.returned .undefined)
    else Completion.returned <$> value call env (ts.getD 0 .absent) := by
  rw [Tree.of, exec, hk, map_eq_pure_bind]

theorem exec_if (hk : l.kind = .ifStmt) :
    exec call env (.of l ts) = value call env (ts.getD 0 .absent) >>= fun v =>
    if v.toBool then exec call env (ts.getD 1 .absent)
    else if (ts.getD 2 .absent).isAbsent then pure .normal
    else exec call env (ts.getD 2 .absent) := by
  rw [Tree.of, exec, hk]

theorem exec_idle (hk : l.kind = .empty ∨ l.kind = .function) :
    exec call env (.of l ts) = pure .normal := by
  rw [Tree.of, exec]
  rcases hk with hk | hk <;> rw [hk]

/-- Kinds of nodes that can be run. -/
def runs : Kind → Bool
  | .block | .empty | .function | .exprStmt | .varDecl | .letDecl | .constDecl | .returnStmt
  | .ifStmt => true
  | _ => false

theorem exec_other (hk : runs l.kind = false) :
    exec call env (.of l ts) = fail (.unsupported l.kind) := by
  rw [Tree.of, exec]
  generalize l.kind = k at hk
  cases k <;> first | rfl | cases hk

theorem declareOne_of : declareOne call env (.of l ts) =
    (if (ts.getD 0 .absent).isAbsent then pure .undefined
      else value call env (ts.getD 0 .absent)) >>= fun v => declare env (l.text.getD "") v := by
  rw [Tree.of, declareOne]
  dsimp only
  split_ifs <;> rfl

end Eval

end

/-! ## Chains that are due -/

namespace Grown

variable {order : List NodeId} {choice : NodeId → Choice} {p : Peeled} {t : Grown}

theorem chain_mem_all {c : NodeId} {xs : List Temp} (hc : c ∈ order) :
    ∀ d ∈ Due.all c xs, d.chain ∈ order := by
  intro d hd
  obtain ⟨x, -, rfl⟩ := List.mem_map.mp hd
  exact hc

theorem mem_order_of_isDue (h : p.isDue order = true) : p.tree.id ∈ order := by
  simp only [Peeled.isDue, Bool.and_eq_true] at h
  simpa using h.2

theorem chain_mem_close (h : ∀ d ∈ p.dues, d.chain ∈ order) :
    ∀ d ∈ (p.close order choice).dues, d.chain ∈ order := by
  rw [Peeled.close]
  split_ifs with hd
  · exact List.forall_mem_append.mpr ⟨h, chain_mem_all (mem_order_of_isDue hd)⟩
  · exact h

theorem chain_mem_under (f : Frame) (h : ∀ d ∈ p.dues, d.chain ∈ order) :
    ∀ d ∈ (p.under order choice f).dues, d.chain ∈ order := by
  rw [Peeled.under]
  split_ifs with hd
  · exact List.forall_mem_append.mpr ⟨h, chain_mem_all (mem_order_of_isDue hd)⟩
  · exact h

theorem chain_mem_peel (t : Grown) : ∀ d ∈ (peel order choice t).dues, d.chain ∈ order := by
  induction t with
  | node i l ts ih =>
    have hall : ∀ us : List Grown, (∀ u ∈ us, u ∈ ts) →
        ∀ d ∈ us.flatMap fun u => (whole order choice u).dues, d.chain ∈ order := by
      intro us hus d hd
      obtain ⟨u, hu, hd⟩ := List.mem_flatMap.mp hd
      exact chain_mem_close (ih u (hus u hu)) d hd
    by_cases ho : l.kind.ownsStatements = true
    · rw [peel_owner i ts ho]
      intro d hd
      obtain ⟨e, he, rfl⟩ := List.mem_map.mp hd
      exact hall ts (fun _ h => h) e he
    cases ts with
    | nil => exact fun d hd => nomatch hd
    | cons t ts =>
      have hfirst := ih t List.mem_cons_self
      have hrest := hall ts fun u hu => List.mem_cons_of_mem t hu
      cases hl : l.kind.isChain with
      | true =>
        rw [peel_chain i t ts hl]
        exact List.forall_mem_append.mpr ⟨hfirst, hrest⟩
      | false =>
        rw [peel_under i t ts hl (by simpa using ho)]
        exact List.forall_mem_append.mpr ⟨chain_mem_under _ hfirst, hrest⟩

theorem chain_mem_whole (t : Grown) : ∀ d ∈ (whole order choice t).dues, d.chain ∈ order :=
  chain_mem_close (chain_mem_peel t)

theorem mem_owed {s : String} (h : (s, true) ∈ Due.marks (whole order choice t).dues) :
    ∃ x ∈ order.flatMap (Due.owed (whole order choice t).dues), x.name = s := by
  obtain ⟨d, hd, e⟩ := List.mem_map.mp (Multiset.mem_coe.mp h)
  obtain ⟨rfl, hp⟩ := Prod.mk.inj e
  refine ⟨d.temp, List.mem_flatMap.mpr ⟨d.chain, chain_mem_whole t d hd, ?_⟩, rfl⟩
  exact List.mem_map_of_mem (List.mem_filter.mpr ⟨hd, by simp [hp]⟩)

theorem name_of_owed {x : Temp} {ds : List Due} (h : x ∈ order.flatMap (Due.owed ds)) :
    x.name ∈ (Due.marks ds).map Prod.fst := by
  obtain ⟨c, -, hx⟩ := List.mem_flatMap.mp h
  obtain ⟨d, hd, rfl⟩ := List.mem_map.mp hx
  exact Multiset.mem_map.mpr
    ⟨(d.temp.name, d.pending), Multiset.mem_coe.mpr (List.mem_map_of_mem (List.mem_filter.mp hd).1),
      rfl⟩

end Grown

namespace Scene

variable {S : Scene} {W : World} {fr : FrameId} {env : Env} {b : Bool} {i : NodeId} {l : Label}
    {t : Grown} {ts gs : List Grown}

section
variable (S) (fr : FrameId) (env : Env)

def Executes (t : Grown) : Prop := ∀ ⦃W : World⦄, S.Here fr W → S.Free fr W (S.dues t) →
  Sim S.change W (exec S.call (fr :: env) t.toTree) (exec S.call' (fr :: env) (S.whole t).toTree)
    Completion.Related

/-- None of the temporaries is declared yet. -/
def Fresh (W : World) (I : Multiset (String × Bool)) : Prop := W.Fresh S.change.temps fr I

end

theorem Fresh.grown {I : Multiset (String × Bool)} (h : S.Fresh fr W I) (σ : Stamps) :
    S.Fresh fr (W.grown σ) I :=
  ⟨h.toDistinct, h.unpinned⟩

/-! ## Bodies -/

theorem sim_hoistOne (hr : S.Ready false t) (hl : t.label.kind.isChain = false)
    (hd : Distinct S.change.temps (S.dues t)) :
    Sim S.change W (hoist env [t.toTree]) (hoist env [(S.whole t).toTree]) fun _ _ _ => True := by
  obtain ⟨i, l, ts⟩ := t
  rw [label_node] at hl
  by_cases hk : l.kind = .function
  · have hcalm : Calm l ts := calm_of (by rw [hk]; rfl) (by rw [hk]; rfl)
    rw [dues_node hcalm] at hd
    rw [whole_node hcalm, toTree_node, toTree_node, hoist_function hk, hoist_function hk]
    refine (closure_function hr hk hd).bind fun σ hσ v v' hv => ?_
    -- a name is no link, so the function is declared as before
    have hname : ((ts.map toTree).getD 0 .absent).text ∉ S.change.temps ∧
        (((S.wholeAll ts).map toTree).getD 0 .absent).text =
        ((ts.map toTree).getD 0 .absent).text := by
      obtain ⟨n, p, g, hts, hn, -, -⟩ := (sound_node.mp hr.sound).1.function hk
      obtain _ | ⟨⟨j, m, ns⟩, _ | ⟨p, _ | ⟨g, _ | _⟩⟩⟩ := ts <;> try cases hts
      rw [kind?_toTree] at hn
      have hm : m.kind = .name := Option.some.inj hn
      obtain ⟨us, hus⟩ :=
        exists_whole S.order S.choice (bottom_of (t := node j m ns) (by rw [label_node, hm]; rfl))
      have hwhole : S.wholeAll [node j m ns, p, g] = [node j m us, S.whole p, S.whole g] := by
        rw [← show S.whole (node j m ns) = node j m us from hus]
        rfl
      rw [hwhole]
      simp only [List.map_cons, List.getD_cons_zero, toTree_node]
      exact ⟨(hr.child hl List.mem_cons_self).text hm, rfl⟩
    rw [hname.2]
    exact .declare hname.1 hv
  · obtain ⟨us, hus⟩ := exists_whole S.order S.choice (t := node i l ts) (bottom_node hl)
    rw [show S.whole (node i l ts) = node i l us from hus, toTree_node, toTree_node, hoist_other hk,
      hoist_other hk]
    exact .pure trivial

theorem lowerBody_cons (t : Grown) (ts : List Grown) :
    (lowerBody S.order S.choice (t :: ts)).map toTree =
      ((S.order.flatMap (Due.owed (Grown.whole S.order S.choice t).dues)).map Temp.declaration).map
      toTree ++ (S.whole t).toTree :: (lowerBody S.order S.choice ts).map toTree := by
  rw [lowerBody, List.flatMap_cons, Closed.statement, List.map_append, List.map_append,
    List.append_assoc]
  rfl

theorem sim_hoist (hr : ∀ t ∈ ts, S.Ready false t) (hl : ∀ t ∈ ts, t.label.kind.isChain = false)
    (hd : Distinct S.change.temps (S.duesOf ts)) :
    Sim S.change W (hoist env (ts.map toTree))
      (hoist env ((lowerBody S.order S.choice ts).map toTree)) fun _ _ _ => True := by
  induction ts generalizing W with
  | nil => exact .pure trivial
  | cons t ts ih =>
    obtain ⟨hrt, hrts⟩ := List.forall_mem_cons.mp hr
    obtain ⟨hlt, hlts⟩ := List.forall_mem_cons.mp hl
    rw [duesOf, duesAll, List.flatMap_cons, Due.marks_append] at hd
    rw [lowerBody_cons, hoist_append, hoist_declarations, pure_bind, List.map_cons, hoist_cons,
      hoist_cons (S.whole t).toTree]
    refine (sim_hoistOne hrt hlt (hd.of_le (Multiset.le_add_right _ _))).bind fun σ _ _ _ _ => ?_
    exact ih hrts hlts (hd.of_le (Multiset.le_add_left _ _))

theorem sim_inOrder (hts : ∀ t ∈ ts, S.Executes fr env t) (hW : S.Here fr W)
    (hfresh : S.Fresh fr W (S.duesOf ts)) :
    Sim S.change W (inOrder ((ts.map toTree).map (exec S.call (fr :: env))))
      (inOrder (((lowerBody S.order S.choice ts).map toTree).map (exec S.call' (fr :: env))))
        Completion.Related := by
  induction ts generalizing W with
  | nil => exact .pure .normal
  | cons t ts ih =>
    obtain ⟨ht, hts⟩ := List.forall_mem_cons.mp hts
    have hsplit : S.Fresh fr W (S.dues t + S.duesOf ts) := by
      rw [duesOf, duesAll, List.flatMap_cons, Due.marks_append] at hfresh
      exact hfresh
    obtain ⟨hfree, hrest⟩ := hsplit.declares (fun s hs => mem_owed hs) fun x hx => name_of_owed hx
    have hpinned : ∀ p ∈ W.pins, p.frame = fr →
        (∃ x ∈ S.order.flatMap (Due.owed (Grown.whole S.order S.choice t).dues), x.name = p.name) →
        p.value = none := by
      rintro p hp hf ⟨x, hx, hn⟩
      refine absurd ?_ (hsplit.unpinned p hp hf)
      rw [Multiset.map_add, ← hn]
      exact Multiset.mem_add.mpr (.inl (name_of_owed hx))
    have htemps : ∀ x ∈ S.order.flatMap (Due.owed (Grown.whole S.order S.choice t).dues),
        x.name ∈ S.change.temps := by
      intro x hx
      obtain ⟨m, hm, e⟩ := Multiset.mem_map.mp (name_of_owed hx)
      exact e ▸ hsplit.temps m (Multiset.mem_add.mpr (.inl hm))
    rw [lowerBody_cons, List.map_append, inOrder_declarations]
    -- from here on the marks of `t` are pins, and those of `ts` are fresh as before
    refine .declareTemps htemps hW.frame hpinned ?_
    have hW' :=
      hW.more (World.extends_declares W fr
        (S.order.flatMap (Due.owed (Grown.whole S.order S.choice t).dues)))
    rw [List.map_cons, List.map_cons, List.map_cons, inOrder, inOrder]
    refine (ht hW' hfree).bind fun σ hσ c c' hc => ?_
    cases hc with
    | normal => exact ih hts (hW'.more (World.extends_grown _ hσ)) (Fresh.grown hrest σ)
    | returned hv => exact .pure (.returned hv)

theorem sim_body (hr : ∀ t ∈ ts, S.Ready false t) (hl : ∀ t ∈ ts, t.label.kind.isChain = false)
    (hts : ∀ t ∈ ts, S.Executes fr env t) (hW : S.Here fr W) (hfresh : S.Fresh fr W (S.duesOf ts)) :
    Sim S.change W (execBody S.call (fr :: env) (ts.map toTree))
      (execBody S.call' (fr :: env) ((lowerBody S.order S.choice ts).map toTree))
        Completion.Related := by
  rw [execBody, execBody]
  refine (sim_hoist hr hl hfresh.toDistinct).bind fun σ hσ _ _ _ => ?_
  exact sim_inOrder hts (hW.more (World.extends_grown W hσ)) (Fresh.grown hfresh σ)

/-! ## Statements -/

theorem isAbsent_getD (ts : List Grown) (k : Nat) :
    ((ts.map toTree).getD k .absent).isAbsent = decide (ts.length ≤ k) := by
  induction ts generalizing k with
  | nil => simp [Tree.isAbsent]
  | cons t ts ih =>
    cases k with
    | zero =>
      obtain ⟨i, l, us⟩ := t
      rw [List.map_cons, List.getD_cons_zero, toTree_node]
      rfl
    | succ k =>
      rw [List.map_cons, List.getD_cons_succ, ih, List.length_cons]
      exact decide_eq_decide.mpr Nat.succ_le_succ_iff.symm

theorem isAbsent_whole (ts : List Grown) (k : Nat) :
    (((S.wholeAll ts).map toTree).getD k .absent).isAbsent =
      ((ts.map toTree).getD k .absent).isAbsent := by
  rw [isAbsent_getD, isAbsent_getD, wholeAll, Grown.wholeAll, List.length_map]

theorem sim_declareOne (hk : t.label.kind = .name) (hr : S.Ready false t)
    (hbelow : ∀ u ∈ t.children, S.Follows fr env u) (hW : S.Here fr W)
    (hfree : S.Free fr W (S.dues t)) :
    Sim S.change W (declareOne S.call (fr :: env) t.toTree) (declareOne S.call' (fr :: env)
      (S.whole t).toTree) fun _ _ _ => True := by
  obtain ⟨i, l, ts⟩ := t
  rw [label_node] at hk
  have hcalm : Calm l ts := calm_of (by rw [hk]; rfl) (by rw [hk]; rfl)
  rw [dues_node hcalm] at hfree
  rw [whole_node hcalm, toTree_node, toTree_node, declareOne_of, declareOne_of, isAbsent_whole]
  have hvalue : Sim S.change W
      (if ((ts.map toTree).getD 0 .absent).isAbsent then pure .undefined
        else value S.call (fr :: env) ((ts.map toTree).getD 0 .absent))
      (if ((ts.map toTree).getD 0 .absent).isAbsent then pure .undefined
        else value S.call' (fr :: env) (((S.wholeAll ts).map toTree).getD 0 .absent))
          Value.Related := by
    split_ifs
    · exact .pure .undefined
    · exact Sim.alike_getD (alike_children hbelow hW hfree) 0 _ (le_refl _)
  exact hvalue.bind fun σ _ v v' hv => .declare (hr.text hk) hv

theorem sim_execAt {k : Nat} (hts : ∀ u ∈ ts[k]?, S.Executes fr env u) (hW : S.Here fr W)
    (hfree : S.Free fr W (S.duesOf ts)) :
    Sim S.change W (exec S.call (fr :: env) ((ts.map toTree).getD k .absent))
      (exec S.call' (fr :: env) (((S.wholeAll ts).map toTree).getD k .absent))
        Completion.Related := by
  rw [wholeAll, Grown.wholeAll, List.map_map, List.getD_eq_getElem?_getD,
    List.getD_eq_getElem?_getD, List.getElem?_map, List.getElem?_map]
  cases h : ts[k]? with
  | none => exact .fail _
  | some u => exact hts u h hW (hfree.of_le (dues_le (List.mem_of_getElem? h)))

section
variable (hr : S.Ready false (node i l ts)) (hW : S.Here fr W)
include hr hW

theorem sim_block (hk : l.kind = .block)
    (hexec : ∀ u ∈ ts, u.label.kind.isChain = false → ∀ fr env,
      S.Executes fr env u) (hfree : S.Free fr W (S.dues (node i l ts))) :
        Sim S.change W (exec S.call (fr :: env) (node i l ts).toTree)
      (exec S.call' (fr :: env) (S.whole (node i l ts)).toTree) Completion.Related := by
  have ho : l.kind.ownsStatements = true := by rw [hk]; rfl
  have hwhole := @whole_owner S.order S.choice _ i ts ho
  rw [dues, hwhole] at hfree
  rw [whole, hwhole, toTree_node, toTree_node, exec_block hk, exec_block hk]
  refine .innerEnv .nil fun f hf hpins => ?_
  refine sim_body (fun u hu => hr.child (by rw [hk]; rfl) hu) (fun u hu => hr.statement ho hu)
    (fun u hu => hexec u hu (hr.statement ho hu) f _)
    ⟨hW.depth, hW.depth', Nat.lt_succ_self f⟩ ⟨hfree.toDistinct.of_declared, fun p hp hpf => ?_⟩
  exact absurd hpf (hpins p hp)

variable (hts : ∀ u ∈ ts, S.Follows fr env u) (hfree : S.Free fr W (S.duesOf ts))
include hts hfree

omit hr in
theorem sim_expr (hk : l.kind = .exprStmt) :
    Sim S.change W (exec S.call (fr :: env) (.of l (ts.map toTree))) (exec S.call' (fr :: env)
      (.of l ((S.wholeAll ts).map toTree))) Completion.Related := by
  rw [exec_expr hk, exec_expr hk]
  exact (Sim.alike_getD (alike_children hts hW hfree) 0 _ (le_refl _)).bind fun _ _ _ _ _ =>
    .pure .normal

omit hr in
theorem sim_return (hk : l.kind = .returnStmt) :
    Sim S.change W (exec S.call (fr :: env) (.of l (ts.map toTree))) (exec S.call' (fr :: env)
      (.of l ((S.wholeAll ts).map toTree))) Completion.Related := by
  rw [exec_return hk, exec_return hk, isAbsent_whole]
  split_ifs
  · exact .pure (.returned .undefined)
  · exact .map (Sim.alike_getD (alike_children hts hW hfree) 0 _ (le_refl _)) fun _ _ _ _ h =>
      .returned h

theorem sim_if (hk : l.kind = .ifStmt)
    (hexec : ∀ u ∈ ts, u.label.kind.isChain = false → S.Executes fr env u) :
    Sim S.change W (exec S.call (fr :: env) (.of l (ts.map toTree)))
      (exec S.call' (fr :: env) (.of l ((S.wholeAll ts).map toTree))) Completion.Related := by
  have harm (k : Nat) (hne : k ≠ 0) (σ : Stamps) (hσ : W.stamps ≤ σ) :
      Sim S.change (W.grown σ) (exec S.call (fr :: env) ((ts.map toTree).getD k .absent))
        (exec S.call' (fr :: env) (((S.wholeAll ts).map toTree).getD k .absent))
          Completion.Related := by
    refine sim_execAt (fun u hu => hexec u (List.mem_of_getElem? hu) ?_)
      (hW.more (World.extends_grown W hσ)) (hfree.grown σ)
    have hget : (ts.map toTree)[k]? = some u.toTree := by
      rw [List.getElem?_map, Option.mem_def.mp hu]
      rfl
    -- a branch is a statement and so no link
    have := (sound_node.mp hr.sound).1.barred k (by rw [hk]; simpa [Kind.bars] using hne) _ hget
    rwa [isChain_toTree] at this
  rw [exec_if hk, exec_if hk]
  refine (Sim.alike_getD (alike_children hts hW hfree) 0 _ (le_refl _)).bind fun σ hσ v v' hv => ?_
  rw [hv.toBool_eq, isAbsent_whole]
  split_ifs
  · exact harm 1 (by decide) σ hσ
  · exact .pure .normal
  · exact harm 2 (by decide) σ hσ

omit hts in
theorem sim_declares (hk : l.kind.isDeclaration = true)
    (hbelow : ∀ u ∈ ts, u.label.kind.isChain = false → ∀ v ∈ u.children, S.Follows fr env v) :
    Sim S.change W (exec S.call (fr :: env) (.of l (ts.map toTree)))
      (exec S.call' (fr :: env) (.of l ((S.wholeAll ts).map toTree))) Completion.Related := by
  have hchain : l.kind.isChain = false := by revert hk; cases l.kind <;> decide
  have hholds : l.kind.holds? = some .name := by revert hk; cases l.kind <;> decide
  have hnames :
    List.Forall₂ (fun t t' => ∀ σ,
      W.stamps ≤ σ → Sim S.change (W.grown σ) (declareOne S.call (fr :: env) t)
      (declareOne S.call' (fr :: env) t') fun _ _ _ => True) (ts.map toTree)
        ((S.wholeAll ts).map toTree) := by
    rw [wholeAll, Grown.wholeAll, List.forall₂_map_left_iff, List.map_map,
      List.forall₂_map_right_iff, List.forall₂_same]
    intro u hu σ hσ
    have hname : u.label.kind = .name := by
      have := (sound_node.mp hr.sound).1.kinds .name hholds u.toTree (List.mem_map_of_mem hu)
      rw [kind?_toTree] at this
      exact Option.some.inj this
    exact sim_declareOne hname (hr.child hchain hu) (hbelow u hu (by rw [hname]; rfl))
      (hW.more (World.extends_grown W hσ))
      ((hfree.of_le (dues_le hu)).grown σ)
  rw [exec_declares hk, exec_declares hk]
  exact Sim.bind (.forM hnames (le_refl _)) fun _ _ _ _ _ => .pure .normal

end

/-- A statement is run alike if what stands below it is. -/
theorem executes_node (hr : S.Ready false (node i l ts)) (hl : l.kind.isChain = false)
    (hts : ∀ u ∈ ts, S.Follows fr env u)
    (hbelow : ∀ u ∈ ts, u.label.kind.isChain = false → ∀ v ∈ u.children,
      S.Follows fr env v)
        (hexec : ∀ u ∈ ts, u.label.kind.isChain = false → ∀ fr env, S.Executes fr env u) :
        S.Executes fr env (node i l ts) := by
  intro W hW hfree
  -- what is no link and owns no statements keeps its root, and its children are lowered apart
  have hcalm (hlink : l.kind.isLink = false) (ho : l.kind.ownsStatements = false)
      (h : S.Free fr W (S.duesOf ts) →
        Sim S.change W (exec S.call (fr :: env) (.of l (ts.map toTree)))
        (exec S.call' (fr :: env) (.of l ((S.wholeAll ts).map toTree))) Completion.Related) :
      Sim S.change W (exec S.call (fr :: env) (node i l ts).toTree)
        (exec S.call' (fr :: env) (S.whole (node i l ts)).toTree)
        Completion.Related := by
    rw [dues_node (calm_of hlink ho)] at hfree
    rw [whole_node (calm_of hlink ho), toTree_node, toTree_node]
    exact h hfree
  obtain ⟨us, hus⟩ := exists_whole S.order S.choice (t := node i l ts) (bottom_node hl)
  have hwhole : S.whole (node i l ts) = node i l us := hus
  cases hk : l.kind with
  | block => exact sim_block hr hW hk hexec hfree
  | exprStmt =>
      exact hcalm (by rw [hk]; rfl) (by rw [hk]; rfl) fun hfree => sim_expr hW hts hfree hk
  | returnStmt =>
      exact hcalm (by rw [hk]; rfl) (by rw [hk]; rfl) fun hfree => sim_return hW hts hfree hk
  | ifStmt =>
    exact hcalm (by rw [hk]; rfl) (by rw [hk]; rfl) fun hfree =>
      sim_if hr hW hts hfree hk fun u hu h => hexec u hu h fr env
  | varDecl | letDecl | constDecl =>
    exact hcalm (by rw [hk]; rfl) (by rw [hk]; rfl) fun hfree =>
      sim_declares hr hW hfree (by rw [hk]; rfl) hbelow
  | empty =>
    rw [hwhole, toTree_node, toTree_node, exec_idle (.inl hk), exec_idle (.inl hk)]
    exact .pure .normal
  | function =>
    rw [hwhole, toTree_node, toTree_node, exec_idle (.inr hk), exec_idle (.inr hk)]
    exact .pure .normal
  | _ =>
    rw [hwhole, toTree_node, toTree_node, exec_other (by rw [hk]; rfl),
      exec_other (by rw [hk]; rfl)]
    exact .fail _

end Scene

end ChainLowering
