import ChainLowering.Proofs.Alike
import ChainLowering.Proofs.Fresh
import ChainLowering.Proofs.Merge

/-!
# The same chains with other names

A tree whose chains are lowered twice, with other nodes and other names for
them and in another order, comes out alike, whatever relation the names of
the temporaries are in. Which temporaries answer to each other is told first,
and the trees are alike under all renamings that agree with that.
-/

namespace ChainLowering

/-- Any name answers to any. -/
def Renaming.all : Renaming := ⟨fun _ _ => True, fun _ => True⟩

namespace Grown

variable {P : Renaming → Prop} {k k' : Link} {ks ks' : List Link} {x x' e e' : Grown}
    {d d' : Lowering} {r : Renaming}

/-- All temporaries answer to those they are paired with. -/
def AllAnswer (r : Renaming) (qs : List (Temp × Temp)) : Prop := ∀ q ∈ qs, q.1.Answers r q.2

theorem allAnswer_append {qs qs' : List (Temp × Temp)} :
    AllAnswer r (qs ++ qs') ↔ AllAnswer r qs ∧ AllAnswer r qs' := List.forall_mem_append

theorem allAnswer_all (qs : List (Temp × Temp)) : AllAnswer Renaming.all qs :=
  fun _ _ => ⟨trivial, trivial⟩

/-- Links at one place, with children that are alike. -/
structure Link.Alike (r : Renaming) (k k' : Link) : Prop where
  id : k'.id = k.id
  label : k'.label = k.label
  args : List.Forall₂ (Grown.Alike r) k.args k'.args

/-- One cut below a link, made twice. -/
structure Split.Twins (P : Renaming → Prop) (qs : List (Temp × Temp)) (s s' : Split) : Prop where
  left : s.temps = qs.map Prod.fst
  right : s'.temps = qs.map Prod.snd
  alike : ∀ r, P r → AllAnswer r qs → s.receiver.Alike r s'.receiver ∧ s.rest.Alike r s'.rest

/-- One chain that is lowered twice. -/
structure Lowering.Twins (P : Renaming → Prop) (qs : List (Temp × Temp)) (d d' : Lowering) :
    Prop where
  left : d.temps = qs.map Prod.fst
  right : d'.temps = qs.map Prod.snd
  alike : ∀ r, P r → AllAnswer r qs →
    List.Forall₂ (fun g g' : Guard => g.receiver.Alike r g'.receiver) d.guards d'.guards ∧
    d.rest.Alike r d'.rest

theorem split_twins (v v' : Saved) (hk : k.label.kind.isChain = true) (hP : P .all)
    (hlink : ∀ r, P r → k.Alike r k') (he : ∀ r, P r → e.Alike r e') :
    ∃ qs, Split.Twins P qs (split v k e) (split v' k' e') := by
  have hlabel := (hlink _ hP).label
  have hkind := (he _ hP).label.kind
  cases hc : (e.label.kind.isGet && decide (k.label.plain.kind = .call)) with
  | false =>
    have hc' : (e'.label.kind.isGet && decide (k'.label.plain.kind = .call)) = false := by
      rw [hlabel, ← hkind, hc]
    refine ⟨[(v.value, v'.value)], ?_, ?_, ?_⟩
    · rw [split_of_other hc]; rfl
    · rw [split_of_other hc']; rfl
    · intro r hr hqs
      have hv : v.value.Answers r v'.value := hqs _ List.mem_cons_self
      rw [split_of_other hc, split_of_other hc', hlabel]
      exact ⟨alike_keep hv (he r hr), alike_plainLink hk (alike_use hv) (hlink r hr).args⟩
  | true =>
    obtain ⟨hg, hp⟩ := Bool.and_eq_true_iff.mp hc
    have hown : e.label.kind.ownsStatements = false := by
      revert hg
      cases e.label.kind <;> decide
    have hts := (he _ hP).children hown
    obtain ⟨j, m, ts⟩ := e
    obtain ⟨j', m', ts'⟩ := e'
    rw [label_node] at hg hkind
    have hg' : m'.kind.isGet = true := by rw [← label_node j' m' ts', ← hkind, hg]
    have hp' : k'.label.plain.kind = .call := by rw [hlabel]; exact of_decide_eq_true hp
    cases hts with
    | nil =>
      -- an access to nothing has no object to keep
      refine ⟨[(v.value, v'.value)], rfl, rfl, ?_⟩
      intro r hr hqs
      have hv : v.value.Answers r v'.value := hqs _ List.mem_cons_self
      have hargs := (hlink r hr).args
      simp only [split, hlabel]
      exact ⟨alike_keep hv (he r hr), alike_plainLink hk (alike_use hv) hargs⟩
    | cons _ _ =>
      rename_i o keys o' keys'
      refine ⟨[(v.this, v'.this), (v.value, v'.value)], ?_, ?_, ?_⟩
      · rw [split_of_get _ _ hg (of_decide_eq_true hp)]; rfl
      · rw [split_of_get _ _ hg' hp']; rfl
      · intro r hr hqs
        obtain ⟨hthis, hqs⟩ := List.forall_mem_cons.mp hqs
        have hvalue : v.value.Answers r v'.value := hqs _ List.mem_cons_self
        obtain ⟨ho, -⟩ := List.forall₂_cons.mp ((he r hr).children hown)
        rw [split_of_get _ _ hg (of_decide_eq_true hp), split_of_get _ _ hg' hp', hlabel]
        exact ⟨alike_keep hvalue (alike_get (he r hr) hg (alike_keep hthis ho)),
          alike_plainLink hk (alike_dot (alike_use hvalue))
            (.cons (alike_use hthis) (hlink r hr).args)⟩

namespace Lowering

theorem step_twins (glue glue' : NodeId → Glue) (hk : k.label.kind.isChain = true) (hP : P .all)
    (hlink : ∀ r, P r → k.Alike r k') {qs : List (Temp × Temp)} (hd : Twins P qs d d') :
    ∃ qs', Twins P (qs ++ qs') (step glue d k) (step glue' d' k') := by
  have hlabel := (hlink _ hP).label
  rw [step, step, hlabel]
  by_cases hm : k.label.chainStart = true
  · rw [if_pos hm, if_pos hm]
    obtain ⟨qs', hs⟩ :=
      split_twins (P := fun r => P r ∧ AllAnswer r qs) (glue k.id).saved (glue' k'.id).saved hk
      ⟨hP, allAnswer_all qs⟩ (fun r hr => hlink r hr.1) (fun r hr => (hd.alike r hr.1 hr.2).2)
    refine ⟨qs', ?_, ?_, ?_⟩
    · rw [cut, List.map_append, hd.left, hs.left]
    · rw [cut, List.map_append, hd.right, hs.right]
    · intro r hr hqs
      obtain ⟨hqs, hqs'⟩ := allAnswer_append.mp hqs
      obtain ⟨hreceiver, hrest⟩ := hs.alike r ⟨hr, hqs⟩ hqs'
      exact ⟨List.rel_append (hd.alike r hr hqs).1 (.cons hreceiver .nil), hrest⟩
  · rw [if_neg hm, if_neg hm]
    refine ⟨[], by rw [List.append_nil]; exact hd.left, by rw [List.append_nil]; exact hd.right, ?_⟩
    intro r hr hqs
    rw [List.append_nil] at hqs
    obtain ⟨hguards, hrest⟩ := hd.alike r hr hqs
    exact ⟨hguards, alike_plainLink hk hrest (hlink r hr).args⟩

theorem foldl_step_twins (glue glue' : NodeId → Glue) (hk : Linked ks) (hP : P .all)
    (hlinks : ∀ r, P r → List.Forall₂ (Link.Alike r) ks ks') {qs : List (Temp × Temp)}
    (hd : Twins P qs d d') :
    ∃ qs', Twins P (qs ++ qs') (ks.foldl (step glue) d) (ks'.foldl (step glue') d') := by
  induction ks generalizing ks' d d' qs with
  | nil =>
    cases hlinks _ hP with
    | nil => exact ⟨[], by rw [List.append_nil]; exact hd⟩
  | cons k ks ih =>
    obtain ⟨k', ks'', -, -, rfl⟩ := List.forall₂_cons_left_iff.mp (hlinks _ hP)
    obtain ⟨qs₁, h₁⟩ := step_twins glue glue' (hk k List.mem_cons_self) hP
      (fun r hr => (List.forall₂_cons.mp (hlinks r hr)).1) hd
    obtain ⟨qs₂, h₂⟩ := ih (fun j hj => hk j (List.mem_cons_of_mem _ hj))
      (fun r hr => (List.forall₂_cons.mp (hlinks r hr)).2) h₁
    exact ⟨qs₁ ++ qs₂, by rw [← List.append_assoc]; exact h₂⟩

theorem lower_twins (glue glue' : NodeId → Glue) (hk : Linked ks) (hP : P .all)
    (hx : ∀ r, P r → x.Alike r x') (hlinks : ∀ r, P r → List.Forall₂ (Link.Alike r) ks ks') :
    ∃ qs, Twins P qs (lower glue x ks) (lower glue' x' ks') := by
  have hstart : Twins P [] { rest := x } { rest := x' } := ⟨rfl, rfl, fun r hr _ => ⟨.nil, hx r hr⟩⟩
  exact foldl_step_twins glue glue' hk hP hlinks hstart

end Lowering

theorem alike_close
    (hguards : List.Forall₂ (fun g g' : Guard => g.receiver.Alike r g'.receiver) d.guards d'.guards)
    (hrest : d.rest.Alike r d'.rest) : d.close.Alike r d'.close := by
  obtain ⟨xs, gs, e⟩ := d
  obtain ⟨ys, gs', e'⟩ := d'
  replace hguards : List.Forall₂ (fun g g' : Guard => g.receiver.Alike r g'.receiver) gs gs' :=
    hguards
  induction hguards with
  | nil => exact hrest
  | cons hg _ ih =>
    rw [Lowering.close_cons, Lowering.close_cons]
    have hleaf : ∀ {k : Kind} {text : Option String} {src src' : Label} {i j : NodeId}, k ≠ .name →
      k.ownsStatements = false →
        (node i (.made k text src) []).Alike r (node j (.made k text src') []) :=
      fun hk ho => alike_node ho (Label.alike_made hk) .nil
    refine alike_node rfl (Label.alike_made Kind.noConfusion)
      (.cons ?_ (.cons ?_ (.cons (ih hrest) .nil)))
    · exact alike_node rfl (Label.alike_made Kind.noConfusion)
        (.cons hg (.cons (hleaf Kind.noConfusion rfl) .nil))
    · exact alike_node rfl (Label.alike_made Kind.noConfusion)
        (.cons (hleaf Kind.noConfusion rfl) .nil)

theorem placed_twins {qs : List (Temp × Temp)} (hd : Lowering.Twins P qs d d') (hP : P .all)
    (u u' : Temp) (dot dot' : NodeId) (src src' : Label) (i : NodeId) {l : Label}
    (ho : l.kind.ownsStatements = false) (hl : ∀ r, P r → l.Alike r l) {args args' : List Grown}
    (hargs : ∀ r, P r → List.Forall₂ (Grown.Alike r) args args') :
    ∃ qs', d.declared u ⟨i, l, [], args⟩ = (qs ++ qs').map Prod.fst ∧
      d'.declared u' ⟨i, l, [], args'⟩ = (qs ++ qs').map Prod.snd ∧ ∀ r, P r →
      AllAnswer r (qs ++ qs') →
        (d.placed u dot src ⟨i, l, [], args⟩).Alike r (d'.placed u' dot' src'
          ⟨i, l, [], args'⟩) := by
  have hrest := (hd.alike _ hP (allAnswer_all qs)).2
  have hcalled : d'.isCalled ⟨i, l, [], args'⟩ = d.isCalled ⟨i, l, [], args⟩ := by
    rw [Lowering.isCalled, Lowering.isCalled, hrest.label.kind]
  cases hc : d.isCalled ⟨i, l, [], args⟩ with
  | false =>
    rw [hc] at hcalled
    refine ⟨[], ?_, ?_, ?_⟩
    · simp [Lowering.declared, hc, hd.left]
    · simp [Lowering.declared, hcalled, hd.right]
    · intro r hr hqs
      rw [List.append_nil] at hqs
      obtain ⟨hguards, hrest⟩ := hd.alike r hr hqs
      simp only [Lowering.placed, hc, hcalled, Bool.false_eq_true, if_false]
      exact alike_node ho (hl r hr) (.cons (alike_close hguards hrest) (hargs r hr))
  | true =>
    rw [hc] at hcalled
    refine ⟨[(u, u')], ?_, ?_, ?_⟩
    · simp [Lowering.declared, hc, hd.left]
    · simp [Lowering.declared, hcalled, hd.right]
    · intro r hr hqs
      obtain ⟨hqs, hu⟩ := allAnswer_append.mp hqs
      replace hu : u.Answers r u' := hu _ List.mem_cons_self
      obtain ⟨hguards, hrest⟩ := hd.alike r hr hqs
      simp only [Lowering.placed, hc, hcalled, if_true]
      have hget : d.rest.label.kind.isGet = true := by
        simp only [Lowering.isCalled, Bool.and_eq_true] at hc
        exact hc.2
      have hown : d.rest.label.kind.ownsStatements = false := by
        revert hget
        cases d.rest.label.kind <;> decide
      obtain ⟨xs, gs, ⟨j, m, ts⟩⟩ := d
      obtain ⟨xs', gs', ⟨j', m', ts'⟩⟩ := d'
      have hts := hrest.children hown
      cases hts with
      | nil => exact alike_node ho (hl r hr) (.cons (alike_close hguards hrest) (hargs r hr))
      | cons h _ =>
        exact alike_node ho (hl r hr)
          (.cons (alike_dot (alike_close hguards (alike_get hrest hget (alike_keep hu h))))
          (.cons (alike_use hu) (hargs r hr)))

/-! ## Towers and trees -/

variable {ns ms : List String} {ps : List (Due × Due)} {as bs : List Due}
    {order order' : List NodeId}
  {choice choice' : NodeId → Choice} {t : Grown} {ts : List Grown} {i c : NodeId} {l : Label}

/-- The names stay, and the temporaries answer to those they are paired with. -/
def Suits (r : Renaming) (ns : List String) (ps : List (Due × Due)) : Prop :=
  (∀ s ∈ ns, r.names s s) ∧ ∀ q ∈ ps, q.1.temp.Answers r q.2.temp

theorem suits_all (ns : List String) (ps : List (Due × Due)) : Suits .all ns ps :=
  ⟨fun _ _ => trivial, fun _ _ => ⟨trivial, trivial⟩⟩

theorem suits_append {ps' : List (Due × Due)} : Suits r (ns ++ ms) (ps ++ ps') ↔
    Suits r ns ps ∧ Suits r ms ps' := by
  unfold Suits
  rw [List.forall_mem_append, List.forall_mem_append]
  tauto

/-- Temporaries of the same chains, in pairs. -/
structure Paired (ps : List (Due × Due)) (as bs : List Due) : Prop where
  left : as = ps.map Prod.fst
  right : bs = ps.map Prod.snd
  same : ∀ q ∈ ps, q.2.chain = q.1.chain ∧ q.2.pending = q.1.pending

/-- Pairs of temporaries of one chain. -/
def Due.pairs (c : NodeId) (qs : List (Temp × Temp)) : List (Due × Due) :=
  qs.map fun q => (⟨c, q.1, true⟩, ⟨c, q.2, true⟩)

namespace Paired

theorem nil : Paired [] [] [] := ⟨rfl, rfl, fun _ h => absurd h List.not_mem_nil⟩

theorem append {ps' : List (Due × Due)} {as' bs' : List Due} (h : Paired ps as bs)
    (h' : Paired ps' as' bs') :
    Paired (ps ++ ps') (as ++ as') (bs ++ bs') :=
  ⟨by rw [h.left, h'.left, List.map_append], by rw [h.right, h'.right, List.map_append],
    List.forall_mem_append.mpr ⟨h.same, h'.same⟩⟩

theorem all (c : NodeId) (qs : List (Temp × Temp)) :
    Paired (Due.pairs c qs) (Due.all c (qs.map Prod.fst)) (Due.all c (qs.map Prod.snd)) := by
  refine ⟨by simp [Due.all, Due.pairs], by simp [Due.all, Due.pairs], ?_⟩
  intro q hq
  obtain ⟨q, -, rfl⟩ := List.mem_map.mp hq
  exact ⟨rfl, rfl⟩

theorem declared (h : Paired ps as bs) :
    Paired (ps.map fun q => (q.1.declared, q.2.declared)) (as.map Due.declared)
      (bs.map Due.declared) := by
  refine ⟨by simp [h.left], by simp [h.right], ?_⟩
  intro q hq
  obtain ⟨p, hp, rfl⟩ := List.mem_map.mp hq
  exact ⟨(h.same p hp).1, rfl⟩

theorem owed (h : Paired ps as bs) (c : NodeId) :
    Due.owed as c = (ps.filter fun q => q.1.pending && q.1.chain = c).map (fun q => q.1.temp) ∧
      Due.owed bs c = (ps.filter fun q => q.1.pending && q.1.chain = c).map (fun q =>
        q.2.temp) := by
  constructor
  · rw [Due.owed, h.left, List.filter_map, List.map_map]
    rfl
  · rw [Due.owed, h.right, List.filter_map, List.map_map]
    refine congrArg _ (List.filter_congr fun q hq => ?_)
    simp [(h.same q hq).1, (h.same q hq).2]

end Paired

structure Peeled.Twins (ns : List String) (ps : List (Due × Due)) (p p' : Peeled) : Prop where
  dues : Paired ps p.dues p'.dues
  alike : ∀ r, Suits r ns ps → p.base.Alike r p'.base ∧ List.Forall₂ (Link.Alike r) p.links p'.links

structure Closed.Twins (ns : List String) (ps : List (Due × Due)) (p p' : Closed) : Prop where
  dues : Paired ps p.dues p'.dues
  alike : ∀ r, Suits r ns ps → p.tree.Alike r p'.tree

theorem suits_pairs {qs : List (Temp × Temp)} (h : Suits r ns (ps ++ Due.pairs c qs)) :
    Suits r ns ps ∧ AllAnswer r qs := by
  rw [← List.append_nil ns, suits_append] at h
  refine ⟨h.1, fun q hq => ?_⟩
  exact h.2.2 _
    (List.mem_map_of_mem
      (f := fun q : Temp × Temp => ((⟨c, q.1, true⟩, ⟨c, q.2, true⟩) : Due × Due)) hq)

theorem alike_tower (hx : x.Alike r x') (hlinks : List.Forall₂ (Link.Alike r) ks ks')
    (hk : Linked ks) : (tower x ks).Alike r (tower x' ks') := by
  induction hlinks generalizing x x' with
  | nil => exact hx
  | @cons k k' ks ks' h _ ih =>
    have hchain := hk k List.mem_cons_self
    refine ih (alike_node (l := k.label) (m := k'.label) ?_ ?_ (.cons hx h.args)) fun j hj =>
      hk j (List.mem_cons_of_mem _ hj)
    · revert hchain
      cases k.label.kind <;> decide
    · rw [h.label]
      refine Label.alike_of_ne fun hn => ?_
      rw [hn] at hchain
      cases hchain

section
variable (hperm : order.Perm order')
    (h : Peeled.Twins ns ps (peel order choice t) (peel order' choice' t))
include hperm h

theorem isDue_twins : (peel order' choice' t).isDue order' = (peel order choice t).isDue order := by
  have hlinks := (h.alike _ (suits_all ns ps)).2.length_eq
  have hempty : (peel order' choice' t).links.isEmpty = (peel order choice t).links.isEmpty := by
    rw [Bool.eq_iff_iff, List.isEmpty_iff_length_eq_zero, List.isEmpty_iff_length_eq_zero, hlinks]
  rw [Peeled.isDue, Peeled.isDue, id_peel, id_peel, hempty, hperm.contains_eq]

omit hperm in
theorem lowering_twins :
    ∃ qs, Lowering.Twins (fun r => Suits r ns ps) qs ((peel order choice t).lowering choice)
      ((peel order' choice' t).lowering choice') :=
  Lowering.lower_twins _ _ (linked_peel t) (suits_all ns ps) (fun r hr => (h.alike r hr).1)
    fun r hr => (h.alike r hr).2

theorem whole_twins :
    ∃ ps', Closed.Twins ns ps' (whole order choice t) (whole order' choice' t) := by
  have hdue := isDue_twins hperm h
  rw [whole, whole, Peeled.close, Peeled.close, hdue]
  split_ifs with hd
  · obtain ⟨qs, hqs⟩ := lowering_twins h
    refine ⟨ps ++ Due.pairs t.id qs, ?_, fun r hr => ?_⟩
    · rw [id_peel, id_peel, hqs.left, hqs.right]
      exact h.dues.append (.all t.id qs)
    · obtain ⟨hr, hanswer⟩ := suits_pairs hr
      obtain ⟨hguards, hrest⟩ := hqs.alike r hr hanswer
      exact alike_close hguards hrest
  · refine ⟨ps, h.dues, fun r hr => ?_⟩
    obtain ⟨hbase, hlinks⟩ := h.alike r hr
    exact alike_tower hbase hlinks (linked_peel t)

end

/-- Trees side by side, as children and as statements. -/
structure AllTwins (order order' : List NodeId) (choice choice' : NodeId → Choice)
    (ps : List (Due × Due)) (ts : List Grown) : Prop where
  dues : Paired ps (duesAll order choice ts) (duesAll order' choice' ts)
  children : ∀ r, Suits r (ts.flatMap names) ps → List.Forall₂ (Grown.Alike r)
    (ts.map fun u => (whole order choice u).tree) (ts.map fun u => (whole order' choice' u).tree)
  statements : ∀ r, Suits r (ts.flatMap names) ps →
    Tree.Rows r ((ts.flatMap fun u => (whole order choice u).statement order).map toTree)
      ((ts.flatMap fun u => (whole order' choice' u).statement order').map toTree)

theorem flatMap_owed (hp : Paired ps as bs) (cs : List NodeId)
    (hr : ∀ q ∈ ps, q.1.temp.Answers r q.2.temp) :
    (∀ x ∈ cs.flatMap (Due.owed as), r.isTemporary x.name) ∧
      List.Forall₂ r.names ((cs.flatMap (Due.owed as)).map Temp.name)
        ((cs.flatMap (Due.owed bs)).map Temp.name) := by
  induction cs with
  | nil => exact ⟨fun _ hx => absurd hx List.not_mem_nil, .nil⟩
  | cons c cs ih =>
    obtain ⟨ihtemp, ihnames⟩ := ih
    obtain ⟨hleft, hright⟩ := hp.owed c
    rw [List.flatMap_cons, List.flatMap_cons, List.map_append, List.map_append, hleft, hright]
    constructor
    · intro x hx
      rcases List.mem_append.mp hx with hx | hx
      · obtain ⟨q, hq, rfl⟩ := List.mem_map.mp hx
        exact (hr q (List.mem_of_mem_filter hq)).temporary
      · exact ihtemp x hx
    · refine List.rel_append ?_ ihnames
      simp only [List.map_map, List.forall₂_map_left_iff, List.forall₂_map_right_iff,
        List.forall₂_same]
      exact fun q hq => (hr q (List.mem_of_mem_filter hq)).name

theorem allTwins (hperm : order.Perm order')
    (hts : ∀ t ∈ ts, ∃ ps,
      Closed.Twins t.names ps (whole order choice t) (whole order' choice' t)) :
    ∃ ps, AllTwins order order' choice choice' ps ts := by
  induction ts with
  | nil => exact ⟨[], .nil, fun _ _ => .nil, fun _ _ => .nil⟩
  | cons t ts ih =>
    obtain ⟨ht, hts⟩ := List.forall_mem_cons.mp hts
    obtain ⟨ps, ht⟩ := ht
    obtain ⟨ps', hts⟩ := ih hts
    refine ⟨ps ++ ps', ht.dues.append hts.dues, ?_, ?_⟩
    · intro r hr
      rw [List.flatMap_cons, suits_append] at hr
      exact .cons (ht.alike r hr.1) (hts.children r hr.2)
    · intro r hr
      rw [List.flatMap_cons, suits_append] at hr
      obtain ⟨htemp, hnames⟩ := flatMap_owed ht.dues order hr.1.2
      have hlets : ∀ xs : List Temp, List.Forall₂ Tree.IsLet (xs.map Temp.name) (xs.map fun x =>
          x.declaration.toTree) := by
        intro xs
        rw [List.forall₂_map_left_iff, List.forall₂_map_right_iff, List.forall₂_same]
        exact fun x _ => isLet_declaration x
      have := Tree.Rows.cons (hlets _) (hlets _) ?_ hnames ((hperm.flatMap_right _).map _)
        (ht.alike r hr.1)
        (hts.statements r hr.2)
      · simpa [Closed.statement, Function.comp_def] using this
      · intro x hx
        obtain ⟨y, hy, rfl⟩ := List.mem_map.mp hx
        exact htemp y hy

theorem suits_node (h : Suits r (node i l ts).names ps) :
    l.Alike r l ∧ Suits r (ts.flatMap names) ps := by
  rw [names_node] at h
  refine ⟨Label.alike_refl fun hl => ?_, fun s hs => h.1 s (List.mem_append_right _ hs), h.2⟩
  cases ht : l.text with
  | none => exact .none
  | some s => exact .some (h.1 s (List.mem_append_left _ (by simp [Label.name?, hl, ht])))

theorem suits_declared (h : Suits r ns (ps.map fun q => (q.1.declared, q.2.declared))) :
    Suits r ns ps :=
  ⟨h.1, fun q hq => h.2 (q.1.declared, q.2.declared) (List.mem_map.mpr ⟨q, hq, rfl⟩)⟩

theorem alike_owner (ho : l.kind.ownsStatements = true) {us : List Grown} (hl : l.Alike r l)
    (h : Tree.Rows r (ts.map toTree) (us.map toTree)) : (node i l ts).Alike r (node i l us) := by
  unfold Alike
  rw [toTree_node, toTree_node]
  exact .owner ho hl h

theorem under_twins (hperm : order.Perm order')
    (h : Peeled.Twins t.names ps (peel order choice t) (peel order' choice' t))
    {ps' : List (Due × Due)} (hts : AllTwins order order' choice choice' ps' ts)
    (hl : l.kind.isChain = false) (ho : l.kind.ownsStatements = false) :
    ∃ ps, Peeled.Twins (node i l (t :: ts)).names ps
      (peel order choice (node i l (t :: ts))) (peel order' choice' (node i l (t :: ts))) := by
  have hdue := isDue_twins hperm h
  rw [peel_under i t ts hl ho, peel_under i t ts hl ho, Peeled.under, Peeled.under, hdue]
  split_ifs with hd
  · obtain ⟨qs, hqs⟩ := lowering_twins h
    let P : Renaming → Prop :=
      fun r => Suits r t.names ps ∧ Suits r (ts.flatMap names) ps' ∧ l.Alike r l
    have hP : P .all :=
      ⟨suits_all _ _, suits_all _ _,
        Label.alike_refl fun _ => by cases l.text <;> constructor; trivial⟩
    have hqsP : Lowering.Twins P qs ((peel order choice t).lowering choice)
        ((peel order' choice' t).lowering choice') :=
      ⟨hqs.left, hqs.right, fun r hr => hqs.alike r hr.1⟩
    obtain ⟨qs', hleft, hright, hplaced⟩ :=
      placed_twins hqsP hP (choice t.id).this (choice' t.id).this (choice t.id).dot
      (choice' t.id).dot (choice t.id).src (choice' t.id).src i ho (fun r hr => hr.2.2) fun r hr =>
        hts.children r hr.2.1
    refine ⟨ps ++ Due.pairs t.id (qs ++ qs') ++ ps', ?_, fun r hr => ?_⟩
    · rw [id_peel, id_peel]
      simp only [hleft, hright]
      exact (h.dues.append (.all t.id _)).append hts.dues
    · obtain ⟨hlabel, hr⟩ := suits_node hr
      rw [List.flatMap_cons, suits_append] at hr
      obtain ⟨hps, hqs⟩ := suits_pairs hr.1
      rw [id_peel, id_peel]
      exact ⟨hplaced r ⟨hps, hr.2, hlabel⟩ hqs, .nil⟩
  · refine ⟨ps ++ ps', h.dues.append hts.dues, fun r hr => ?_⟩
    obtain ⟨hlabel, hr⟩ := suits_node hr
    rw [List.flatMap_cons, suits_append] at hr
    obtain ⟨hbase, hlinks⟩ := h.alike r hr.1
    exact ⟨alike_node ho hlabel
      (.cons (alike_tower hbase hlinks (linked_peel t)) (hts.children r hr.2)), .nil⟩

/-- The pieces of a tree answer to each other, whatever is made for its chains and in whatever
order. -/
theorem peel_twins (hperm : order.Perm order') (choice choice' : NodeId → Choice) (t : Grown) :
    ∃ ps, Peeled.Twins t.names ps (peel order choice t) (peel order' choice' t) := by
  induction t with
  | node i l ts ih =>
    have hwhole : ∀ t ∈ ts, ∃ ps,
        Closed.Twins t.names ps (whole order choice t) (whole order' choice' t) := by
      intro t ht
      obtain ⟨ps, h⟩ := ih t ht
      exact whole_twins hperm h
    by_cases ho : l.kind.ownsStatements = true
    · obtain ⟨ps, hts⟩ := allTwins hperm hwhole
      rw [peel_owner i ts ho, peel_owner i ts ho]
      refine ⟨_, hts.dues.declared, fun r hr => ⟨?_, .nil⟩⟩
      obtain ⟨hlabel, hr⟩ := suits_node hr
      exact alike_owner ho hlabel (hts.statements r (suits_declared hr))
    · replace ho : l.kind.ownsStatements = false := by simpa using ho
      cases ts with
      | nil => exact ⟨[], .nil, fun r hr => ⟨alike_node ho (suits_node hr).1 .nil, .nil⟩⟩
      | cons t ts =>
        obtain ⟨ps, h⟩ := ih t List.mem_cons_self
        obtain ⟨ps', hts⟩ := allTwins hperm fun u hu => hwhole u (List.mem_cons_of_mem _ hu)
        by_cases hl : l.kind.isChain = true
        · rw [peel_chain i t ts hl, peel_chain i t ts hl]
          refine ⟨ps ++ ps', h.dues.append hts.dues, fun r hr => ?_⟩
          have hr := (suits_node hr).2
          rw [List.flatMap_cons, suits_append] at hr
          obtain ⟨hbase, hlinks⟩ := h.alike r hr.1
          exact ⟨hbase, List.rel_append hlinks (.cons ⟨rfl, rfl, hts.children r hr.2⟩ .nil)⟩
        · exact under_twins hperm h hts (by simpa using hl) ho

theorem exists_twins (hperm : order.Perm order') (choice choice' : NodeId → Choice) (t : Grown) :
    ∃ ps, Closed.Twins t.names ps (whole order choice t) (whole order' choice' t) := by
  obtain ⟨ps, h⟩ := peel_twins hperm choice choice' t
  exact whole_twins hperm h

end Grown

end ChainLowering
