import ChainLowering.Proofs.TowerSound

/-!
# Other expressions side by side

Operators, assignments, object literals and functions pass on what their
children come to, and none of them is changed by the lowering of a chain.
-/

namespace ChainLowering

open Eval Grown

/-- Places that are the same up to stamps, and no temporaries. -/
inductive Eval.Place.Related (temps : List String) (σ : Stamps) : Place → Place → Prop
  | variableNamed {name : String} (h : name ∉ temps) :
      Related temps σ (.variableNamed name) (.variableNamed name)
  | property {v v' : Value} (h : v.Related σ v') (key : String) :
      Related temps σ (.property v key) (.property v' key)

namespace Sim

variable {α β : Type} {P : Change} {W : World} {Q : Stamps → α → β → Prop} {x : Eval α} {y : Eval β}
    {call call' : Caller}
  {env : Env} {l : Label} {ts us : List Tree} {v v' : Value}

theorem of_oneToOne (h : W.stamps.OneToOne → Sim P W x y Q) : Sim P W x y Q :=
  fun m m' hm => h hm.oneToOne m m' hm

theorem alike_getD (h : List.Forall₂ (Alike P W call call' env) ts us) (i : Nat) :
    Alike P W call call' env (ts.getD i .absent) (us.getD i .absent) := by
  induction h generalizing i with
  | nil => exact fun _ _ => .map (.fail _) fun _ _ _ _ h => h
  | cons h _ ih =>
    cases i with
    | zero => exact h
    | succ i => exact ih i

theorem lookup (name : String) (hn : name ∉ P.temps) :
    Sim P W (MonadState.get >>= fun m : Machine =>
      Pure.pure (plain ((m.lookup env name).getD .undefined)))
      (MonadState.get >>= fun m : Machine =>
        Pure.pure (plain ((m.lookup env name).getD .undefined))) Results := by
  refine .get fun m m' hm => .done (le_refl _) hm ?_
  have h := hm.lookup env hn
  generalize m.lookup env name = o, m'.lookup env name = o' at h
  cases h with
  | none => exact .plain .undefined
  | some hv => exact .plain hv

theorem operator (hk : l.kind.isLink = false) (hassign : l.kind ≠ .assign)
    (hobject : l.kind ≠ .objectLit) (hfunction : l.kind ≠ .function)
    (hname : l.kind = .name → l.text.getD "" ∉ P.temps)
    (hts : List.Forall₂ (Alike P W call call' env) ts us) :
    Sim P W (reference call env (.of l ts)) (reference call' env (.of l us)) Results := by
  have hv (i : Nat) (σ : Stamps) (hσ : W.stamps ≤ σ) := alike_getD hts i σ hσ
  rw [Tree.of, Tree.of, reference, reference]
  generalize hkind : l.kind = k at hk hassign hobject hfunction hname
  cases k with
  | name => exact (Sim.variableOf (hname rfl)).bind fun _ _ _ _ h => .pure (.plain h)
  | numberLit => exact .pure (.plain (.number _))
  | stringLit => exact .pure (.plain (.string _))
  | nullLit => exact .pure (.plain .null)
  | trueLit | falseLit => exact .pure (.plain (.bool _))
  | this => exact .lookup "this" P.this
  | void => exact (hv 0 _ (le_refl _)).bind fun _ _ _ _ _ => .pure (.plain .undefined)
  | not =>
    refine (hv 0 _ (le_refl _)).bind fun _ _ a b h => .pure ?_
    rw [h.toBool_eq]
    exact .plain (.bool _)
  | eq | ne | strictEq | strictNe =>
    -- functions are compared by their stamps
    refine (hv 0 _ (le_refl _)).bind fun σ hσ a b h => (hv 1 σ hσ).bind fun τ hτ c d h' =>
      .of_oneToOne fun ho => .pure ?_
    rw [(h.mono hτ).compare_eq ho _ h']
    exact .plain (.bool _)
  | and =>
    refine (hv 0 _ (le_refl _)).bind fun σ hσ a b h => ?_
    rw [h.toBool_eq]
    cases a.toBool
    · exact .pure (.plain h)
    · exact (hv 1 σ hσ).bind fun _ _ _ _ h => .pure (.plain h)
  | or =>
    refine (hv 0 _ (le_refl _)).bind fun σ hσ a b h => ?_
    rw [h.toBool_eq]
    cases a.toBool
    · exact (hv 1 σ hσ).bind fun _ _ _ _ h => .pure (.plain h)
    · exact .pure (.plain h)
  | comma =>
    exact (hv 0 _ (le_refl _)).bind fun σ hσ _ _ _ => (hv 1 σ hσ).bind fun _ _ _ _ h => .pure (.plain h)
  | hook =>
    refine (hv 0 _ (le_refl _)).bind fun σ hσ a b h => ?_
    rw [h.toBool_eq]
    cases a.toBool
    · exact (hv 2 σ hσ).bind fun _ _ _ _ h => .pure (.plain h)
    · exact (hv 1 σ hσ).bind fun _ _ _ _ h => .pure (.plain h)
  | assign => exact absurd rfl hassign
  | objectLit => exact absurd rfl hobject
  | function => exact absurd rfl hfunction
  | getProp | getElem | call | chainProp | chainElem | chainCall => cases hk
  | _ => exact .fail _

end Sim

namespace Eval

variable {call : Caller} {env : Env} {l : Label} {o : Tree} {ts : List Tree}

theorem reference_assign (hk : l.kind = .assign) : reference call env (.of l ts) =
    place call env (ts.getD 0 .absent) >>= fun p => value call env (ts.getD 1 .absent) >>= fun v =>
      store env v p >>= fun _ => pure (plain v) := by
  rw [Tree.of, reference, hk]
  rfl

theorem place_get (hk : l.kind.isGet = true) : place call env (.of l (o :: ts)) =
    value call env o >>= fun v => keyOf call env l ts >>= fun key => pure (.property v key) := by
  have hkinds : l.kind = .getProp ∨ l.kind = .getElem := by
    revert hk
    cases l.kind <;> decide
  rw [Tree.of, place]
  rcases hkinds with hk | hk <;> rw [hk] <;> refine congrArg (value call env o >>= ·)
    (funext fun v => ?_) <;>
    simp [keyOf, Label.plain, hk, Kind.plain?, value]

theorem place_other (hn : l.kind ≠ .name) (hg : l.kind.isGet = false) :
    place call env (.of l ts) = fail (.unsupported l.kind) := by
  rw [Tree.of, place]
  cases hk : l.kind with
  | name => exact absurd hk hn
  | getProp | getElem => rw [hk] at hg; cases hg
  | _ => rfl

theorem reference_object (hk : l.kind = .objectLit) :
    reference call env (.of l ts) = ts.mapM (entry call env) >>= fun es =>
    plain <$> make (·.newObject (es.foldl (fun bs e => bs.put e.1 e.2) [])) := by
  rw [Tree.of, reference, hk, ← mapM_args]
  exact congrArg (_ >>= ·) (funext fun es => (map_eq_pure_bind ..).symm)

theorem reference_function (hk : l.kind = .function) :
    reference call env (.of l ts) = plain <$> closure env fun i => ts.getD i .absent := by
  rw [Tree.of, reference, hk, map_eq_pure_bind]

theorem entry_of :
    entry call env (.of l ts) = (l.text.getD "", ·) <$> value call env (ts.getD 0 .absent) := by
  rw [Tree.of, entry, value, ← comp_map, map_eq_pure_bind]
  rfl

end Eval

/-- Entries with the same key and related values. -/
structure SameEntry (σ : Stamps) (e e' : String × Value) : Prop where
  key : e'.1 = e.1
  value : e.2.Related σ e'.2

theorem Bindings.Related.entries {σ : Stamps} {es es' : List (String × Value)} {bs bs' : Bindings}
    (h : List.Forall₂ (SameEntry σ) es es') (hbs : bs.Related [] σ bs') :
    (es.foldl (fun bs e => bs.put e.1 e.2) bs).Related [] σ (es'.foldl
      (fun bs e => bs.put e.1 e.2) bs') := by
  induction h generalizing bs bs' with
  | nil => exact hbs
  | cons he _ ih =>
    refine ih ?_
    dsimp only
    rw [he.key]
    exact hbs.put _ he.value

namespace Grown

variable {temps : List String} {order : List NodeId} {choice : NodeId → Choice} {b c : Bool}
    {i : NodeId} {l : Label} {t : Grown}
  {ts : List Grown} {ds : List Due}

theorem Ready.other (h : Ready temps order b t) (hl : t.label.kind.isChain = false) :
    Ready temps order c t where
  sound := h.sound
  names := h.names
  ends d hd := h.ends d (by rwa [endSet_of_not_isChain hl b, ← endSet_of_not_isChain hl c])

theorem Ready.text {P : Change} (h : Ready P.temps order b (node i l ts)) (hk : l.kind = .name) :
    l.text.getD "" ∉ P.temps := by
  cases ht : l.text with
  | none => exact P.empty
  | some s =>
    refine h.names s ?_
    rw [names_node, Label.name?, if_pos hk, ht]
    exact List.mem_append_left _ (List.mem_singleton_self s)

theorem names_declared (ds : List Due) :
    (Due.marks (ds.map Due.declared)).map Prod.fst = (Due.marks ds).map Prod.fst := by
  simp [Due.marks, Due.declared, Function.comp_def]

end Grown

theorem Distinct.of_declared {temps : List String} {ds : List Due}
    (h : Distinct temps (Due.marks (ds.map Due.declared))) :
    Distinct temps (Due.marks ds) where
  nodup := by
    rw [← names_declared]
    exact h.nodup
  temps m hm := by
    have : m.1 ∈ (Due.marks (ds.map Due.declared)).map Prod.fst := by
      rw [names_declared]
      exact Multiset.mem_map_of_mem _ hm
    obtain ⟨n, hn, e⟩ := Multiset.mem_map.mp this
    exact e ▸ h.temps n hn

namespace Grown

variable {temps : List String} {order : List NodeId} {choice : NodeId → Choice} {i : NodeId}
    {l : Label} {t : Grown} {ts : List Grown}

theorem Ready.statement (hr : Ready temps order false (node i l ts))
    (ho : l.kind.ownsStatements = true) (ht : t ∈ ts) :
    t.label.kind.isChain = false := by
  obtain ⟨k, hk⟩ := List.mem_iff_getElem?.mp (List.mem_map_of_mem (f := toTree) ht)
  have := (sound_node.mp hr.sound).1.barred k (Kind.bars_of_ownsStatements ho k) _ hk
  rwa [isChain_toTree] at this

theorem lowersBody_owner (hr : Ready temps order false t) (ho : t.label.kind.ownsStatements = true)
    (hd : Distinct temps (Due.marks (whole order choice t).dues)) :
    LowersBody temps t.toTree.children (whole order choice t).tree.toTree.children := by
  obtain ⟨j, m, gs⟩ := t
  rw [label_node] at ho
  rw [whole_owner j gs ho] at hd ⊢
  rw [toTree_node, toTree_node, Tree.children_of, Tree.children_of]
  exact .of (fun t ht => hr.child (not_isChain_of_ownsStatements ho) ht)
    (fun t ht => hr.statement ho ht) hd.of_declared

end Grown

theorem Eval.Place.Related.mono {temps : List String} {σ τ : Stamps} {p p' : Place}
    (h : p.Related temps σ p') (hσ : σ ≤ τ) :
    p.Related temps τ p' := by
  cases h with
  | variableNamed h => exact .variableNamed h
  | property h key => exact .property (h.mono hσ) key

theorem Sim.store {P : Change} {W : World} {env : Env} {v v' : Value} {p p' : Eval.Place}
    (hv : v.Related W.stamps v') (hp : p.Related P.temps W.stamps p') :
    Sim P W (Eval.store env v p) (Eval.store env v' p') fun _ _ _ => True := by
  cases hp with
  | variableNamed h => exact .assign h hv
  | property h key => exact .setProperty key h hv

namespace Scene

variable {S : Scene} {W : World} {fr : FrameId} {env : Env} {b : Bool} {i : NodeId} {l : Label}
    {t : Grown} {ts : List Grown}

theorem whole_node (h : Calm l ts) : S.whole (node i l ts) = node i l (S.wholeAll ts) := by
  rw [whole, whole_calm h]
  rfl

theorem dues_node (h : Calm l ts) : S.dues (node i l ts) = S.duesOf ts := by
  rw [dues, whole_calm h]
  rfl

theorem calm_of (hlink : l.kind.isLink = false) (ho : l.kind.ownsStatements = false) :
    Calm l ts := by
  refine .of_ne ?_ ho ?_
  · revert hlink
    cases l.kind <;> decide
  · rintro hk
    rw [hk] at hlink
    cases hlink

/-! ## Places and entries -/

theorem sim_place (hr : S.Ready false t) (hl : t.label.kind.isChain = false)
    (hbelow : ∀ u ∈ t.children, S.Follows fr env u) (hW : S.Here fr W)
    (hfree : S.Free fr W (S.dues t)) :
    Sim S.change W (place S.call (fr :: env) t.toTree)
      (place S.call' (fr :: env) (S.whole t).toTree)
      (Place.Related S.change.temps) := by
  obtain ⟨i, l, ts⟩ := t
  rw [label_node] at hl
  obtain ⟨us, hus⟩ := exists_whole S.order S.choice (t := node i l ts) (bottom_node hl)
  have hwhole : S.whole (node i l ts) = node i l us := hus
  by_cases hname : l.kind = .name
  · rw [hwhole, toTree_node, toTree_node, Tree.of, Tree.of, place, place, hname]
    exact .pure (.variableNamed (hr.text hname))
  by_cases hget : l.kind.isGet = true
  · obtain _ | ⟨o, keys⟩ := ts
    · exact absurd rfl (hr.sound.children_ne (Tree.isLink_of_isGet hget))
    obtain ⟨ho, hkeys⟩ := List.forall_mem_cons.mp hbelow
    have hcalm : Calm l (o :: keys) :=
      .of_ne hl (by revert hget; cases l.kind <;> decide)
        (by rintro hk; rw [hk] at hget; cases hget)
    rw [dues_node hcalm, duesOf, duesAll, List.flatMap_cons, Due.marks_append] at hfree
    rw [whole_node hcalm, toTree_node, toTree_node, wholeAll, Grown.wholeAll, List.map_cons,
      List.map_cons, List.map_cons, place_get hget, place_get hget]
    refine (ho hW hfree.left).bind fun σ hσ v v' hv => ?_
    have hW' : S.Here fr (W.grown σ) := hW.more (World.extends_grown W hσ)
    refine (Sim.keyOf l (alike_children hkeys hW' (hfree.right.grown σ))).bind
      fun τ hτ key key' hkey => ?_
    obtain rfl := hkey
    exact .pure (.property (hv.mono hτ) key')
  · have hget : l.kind.isGet = false := by simpa using hget
    rw [hwhole, toTree_node, toTree_node, place_other hname hget, place_other hname hget]
    exact .fail _

theorem sim_entry (hk : t.label.kind = .objectKey) (hbelow : ∀ u ∈ t.children, S.Follows fr env u)
    (hW : S.Here fr W) (hfree : S.Free fr W (S.dues t)) :
    Sim S.change W (entry S.call (fr :: env) t.toTree) (entry S.call' (fr :: env)
      (S.whole t).toTree) SameEntry := by
  obtain ⟨i, l, ts⟩ := t
  rw [label_node] at hk
  have hcalm : Calm l ts := calm_of (by rw [hk]; rfl) (by rw [hk]; rfl)
  rw [dues_node hcalm] at hfree
  rw [whole_node hcalm, toTree_node, toTree_node, entry_of, entry_of]
  exact .map (Sim.alike_getD (alike_children hbelow hW hfree) 0 _ (le_refl _)) fun _ _ _ _ h =>
    ⟨rfl, h⟩

/-! ## What is no link -/

section
variable (hr : S.Ready false (node i l ts)) (hts : ∀ u ∈ ts, S.Follows fr env u)
  (hbelow : ∀ u ∈ ts, u.label.kind.isChain = false → ∀ v ∈ u.children, S.Follows fr env v)
    (hW : S.Here fr W)
  (hfree : S.Free fr W (S.duesOf ts))
include hr hts hbelow hW hfree

theorem results_assign (hk : l.kind = .assign) :
    Sim S.change W (reference S.call (fr :: env) (.of l (ts.map toTree)))
      (reference S.call' (fr :: env) (.of l ((S.wholeAll ts).map toTree))) Results := by
  have hplace : Sim S.change W (place S.call (fr :: env) ((ts.map toTree).getD 0 .absent))
      (place S.call' (fr :: env) (((S.wholeAll ts).map toTree).getD 0 .absent))
        (Place.Related S.change.temps) := by
    cases ts with
    | nil => exact .fail _
    | cons t ts =>
      have hl : t.label.kind.isChain = false := by
        have := (sound_node.mp hr.sound).1.barred 0 (by rw [hk]; rfl) t.toTree rfl
        rwa [isChain_toTree] at this
      have hready : S.Ready false t := hr.child (by rw [hk]; rfl) List.mem_cons_self
      exact sim_place hready hl (hbelow t List.mem_cons_self hl)
        hW (hfree.of_le (dues_le List.mem_cons_self))
  rw [reference_assign hk, reference_assign hk]
  refine hplace.bind fun σ hσ p p' hp => ?_
  refine (Sim.alike_getD (alike_children hts hW hfree) 1 σ hσ).bind fun τ hτ v v' hv => ?_
  exact (Sim.store (W := W.grown τ) hv (hp.mono hτ)).bind fun υ hυ _ _ _ =>
    .pure (.plain (hv.mono hυ))

omit hts in
theorem results_object (hk : l.kind = .objectLit) :
    Sim S.change W (reference S.call (fr :: env) (.of l (ts.map toTree)))
      (reference S.call' (fr :: env) (.of l ((S.wholeAll ts).map toTree))) Results := by
  have hentries :
    List.Forall₂ (fun t t' => ∀ σ,
      W.stamps ≤ σ → Sim S.change (W.grown σ) (entry S.call (fr :: env) t)
      (entry S.call' (fr :: env) t') SameEntry) (ts.map toTree) ((S.wholeAll ts).map toTree) := by
    rw [wholeAll, Grown.wholeAll, List.forall₂_map_left_iff, List.map_map,
      List.forall₂_map_right_iff, List.forall₂_same]
    intro u hu σ hσ
    have hkey : u.label.kind = .objectKey := by
      have := (sound_node.mp hr.sound).1.kinds .objectKey (by
        rw [hk]; rfl) u.toTree (List.mem_map_of_mem hu)
      rw [kind?_toTree] at this
      exact Option.some.inj this
    exact sim_entry hkey (hbelow u hu (by rw [hkey]; rfl)) (hW.more (World.extends_grown W hσ))
      ((hfree.of_le (dues_le hu)).grown σ)
  rw [reference_object hk, reference_object hk]
  refine Sim.bind (.mapM (fun h hσ => ⟨h.key, h.value.mono hσ⟩) hentries (le_refl _))
    fun σ hσ es es' hes => ?_
  exact .map (.newObject (.entries hes .nil)) fun _ _ _ _ h => Results.plain h

end

/-! ## Functions -/

theorem paramNames_whole {p : Grown} (hs : p.Sound) (hp : p.label.kind = .paramList) :
    (S.whole p).toTree.children.map Tree.text = p.toTree.children.map Tree.text := by
  obtain ⟨j, m, ps⟩ := p
  rw [label_node] at hp
  have hcalm : Calm m ps := calm_of (by rw [hp]; rfl) (by rw [hp]; rfl)
  rw [whole_node hcalm, toTree_node, toTree_node, Tree.children_of, Tree.children_of, wholeAll,
    Grown.wholeAll, List.map_map, List.map_map, List.map_map]
  refine List.map_congr_left fun q hq => ?_
  have hname : q.label.kind = .name := by
    have := (sound_node.mp hs).1.kinds .name (by rw [hp]; rfl) q.toTree (List.mem_map_of_mem hq)
    rw [kind?_toTree] at this
    exact Option.some.inj this
  obtain ⟨us, hus⟩ := exists_whole S.order S.choice (bottom_of (t := q) (by rw [hname]; rfl))
  obtain ⟨k, m', qs⟩ := q
  simp only [Function.comp_apply]
  rw [hus, toTree_node, toTree_node]
  rfl

theorem closure_function (hr : S.Ready false (node i l ts)) (hk : l.kind = .function)
    (hd : Distinct S.change.temps (S.duesOf ts)) :
    Sim S.change W (closure env fun k => (ts.map toTree).getD k .absent)
      (closure env fun k => ((S.wholeAll ts).map toTree).getD k .absent) Value.Related := by
  obtain ⟨n, p, g, hts, -, hp, hg⟩ := (sound_node.mp hr.sound).1.function hk
  obtain _ | ⟨n, _ | ⟨p, _ | ⟨g, _ | _⟩⟩⟩ := ts <;> try cases hts
  rw [kind?_toTree] at hp hg
  have hchain : l.kind.isChain = false := by rw [hk]; rfl
  have hsub : S.dues g ≤ S.duesOf [n, p, g] := dues_le (by simp)
  refine .closure ?_ ?_
  · exact paramNames_whole (hr.child hchain (by simp)).sound (Option.some.inj hp)
  · exact S.bodies (lowersBody_owner (hr.child hchain (by simp)) (by rw [Option.some.inj hg]; rfl)
      (hd.of_le hsub))

/-! ## All of them -/

theorem reference_owner {call : Caller} {env : Env} {ts : List Tree}
    (ho : l.kind.ownsStatements = true) :
    reference call env (.of l ts) = fail (.unsupported l.kind) := by
  have hkinds : l.kind = .script ∨ l.kind = .block := by
    revert ho
    cases l.kind <;> decide
  rw [Tree.of, reference]
  rcases hkinds with hk | hk <;> rw [hk]

/-- An expression that is no link makes related values of those of its children. -/
theorem results_node (hr : S.Ready false (node i l ts)) (hlink : l.kind.isLink = false)
    (hts : ∀ u ∈ ts, S.Follows fr env u)
    (hbelow : ∀ u ∈ ts, u.label.kind.isChain = false → ∀ v ∈ u.children,
      S.Follows fr env v) (hW : S.Here fr W) (hfree : S.Free fr W (S.dues (node i l ts))) :
        Sim S.change W (reference S.call (fr :: env) (node i l ts).toTree)
      (reference S.call' (fr :: env) (S.whole (node i l ts)).toTree) Results := by
  by_cases ho : l.kind.ownsStatements = true
  · have hwhole := @whole_owner S.order S.choice _ i ts ho
    rw [whole, hwhole, toTree_node, toTree_node, reference_owner ho, reference_owner ho]
    exact .fail _
  have hcalm : Calm l ts := calm_of hlink (by simpa using ho)
  rw [dues_node hcalm] at hfree
  rw [whole_node hcalm, toTree_node, toTree_node]
  by_cases hassign : l.kind = .assign
  · exact results_assign hr hts hbelow hW hfree hassign
  by_cases hobject : l.kind = .objectLit
  · exact results_object hr hbelow hW hfree hobject
  by_cases hfunction : l.kind = .function
  · rw [reference_function hfunction, reference_function hfunction]
    exact .map (closure_function hr hfunction hfree.toDistinct) fun _ _ _ _ h => Results.plain h
  · exact .operator hlink hassign hobject hfunction (fun h => hr.text h)
      (alike_children hts hW hfree)

end Scene

end ChainLowering
