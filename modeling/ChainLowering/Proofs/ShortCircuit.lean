import ChainLowering.Proofs.Completeness
import ChainLowering.Proofs.Rejection
import ChainLowering.Proofs.TowerSound

/-!
# Where a chain stops

The links of a chain are run from the lowest one up. The first marked link
that finds null or undefined ends the chain without a value, whatever the keys
and arguments from there on are. If no marked link finds that, marks make no
difference: the chain is run as the same links without marks would be, but
for the findings that a run notes and never looks at.
-/

namespace ChainLowering

open Grown

/-! ## Findings -/

namespace Eval

section
variable {α β : Type} {x : Eval α} {f : α → Eval β}

/-- The same end, but for findings. -/
structure Agree (r s : Except (Halt RuntimeError) α × Machine) : Prop where
  result : r.1 = s.1
  machine : r.2.bare = s.2.bare

theorem Agree.refl (r : Except (Halt RuntimeError) α × Machine) : Agree r r := ⟨rfl, rfl⟩

/-- Findings that are there make no difference. -/
structure Blind (x : Eval α) : Prop where
  run : ∀ m n : Machine, m.bare = n.bare → Agree (x.run m) (x.run n)

theorem Agree.bind {y : Eval α} {g : α → Eval β} {m n : Machine} (h : Agree (x.run m) (y.run n))
    (hf : ∀ v m' n', x.run m = (.ok v, m') → m'.bare = n'.bare →
      Agree ((f v).run m') ((g v).run n')) :
    Agree ((x >>= f).run m) ((y >>= g).run n) := by
  rcases hx : x.run m with ⟨e | v, m'⟩ <;> rcases hy : y.run n with ⟨e' | w, n'⟩ <;>
    rw [hx, hy] at h
  · obtain rfl : e = e' := Except.error.inj h.result
    rw [run_bind_error hx, run_bind_error hy]
    exact ⟨rfl, h.machine⟩
  · cases h.result
  · cases h.result
  · obtain rfl : v = w := Except.ok.inj h.result
    rw [run_bind_ok hx, run_bind_ok hy]
    exact hf v m' n' hx h.machine

theorem blind_make {f : Machine → α × Machine}
    (hf : ∀ m, (f m.bare).1 = (f m).1 ∧ (f m.bare).2.bare = (f m).2.bare) :
    Blind (make f) := by
  refine ⟨fun m n h => ⟨?_, ?_⟩⟩
  · change Except.ok (f m).1 = .ok (f n).1
    rw [← (hf m).1, h, (hf n).1]
  · change (f m).2.bare = (f n).2.bare
    rw [← (hf m).2, h, (hf n).2]

theorem closed_blind : Closed Blind where
  pure _ := ⟨fun _ _ h => ⟨rfl, h⟩⟩
  fail _ := ⟨fun _ _ h => ⟨rfl, h⟩⟩
  bind hx hf :=
    ⟨fun m n h => (hx.run m n h).bind fun v m' n' hr h' => (hf v ⟨m, m', hr⟩).run m' n' h'⟩
  look {α f} hb hf := by
    refine ⟨fun m n h => ?_⟩
    have hsame : f n = f m := by rw [← hb n, ← h, hb m]
    change Agree ((f m).run m) ((f n).run n)
    rw [hsame]
    exact (hf m).run m n h
  access hb _ := blind_make hb
  note _ _ := blind_make (f := fun m => ((), m.note _ _)) fun _ => ⟨rfl, rfl⟩

theorem Blind.deeper (hx : Blind x) : Blind (deeper x) := by
  refine ⟨fun m n h => ?_⟩
  have hdepth : m.bare.depth = n.bare.depth := congrArg Machine.depth h
  by_cases hfull : maxCallDepth ≤ m.depth
  · rw [run_deeper_full hfull, run_deeper_full (hdepth ▸ hfull)]
    exact ⟨rfl, h⟩
  · rw [run_deeper_ok (Nat.lt_of_not_le hfull), run_deeper_ok (Nat.lt_of_not_le (hdepth ▸ hfull))]
    obtain ⟨hresult, hmachine⟩ := hx.run m.enter n.enter (congrArg Machine.enter h)
    exact ⟨hresult, congrArg Machine.leave hmachine⟩

theorem blind_callTo (k : Nat) (v this : Value) (args : List Value) :
    Blind (callTo k v this args) := by
  induction k generalizing v this args with
  | zero => exact ⟨fun _ _ h => ⟨rfl, h⟩⟩
  | succ k ih =>
    cases v with
    | function f => exact (closed_blind.invoke ih f this args).deeper
    | _ => exact closed_blind.fail _

end

/-! ## What a link leaves -/

/-- What ends with a value leaves one: no chain ended early in it. -/
structure Valued (x : Eval Reference) : Prop where
  run : ∀ m n : Machine, x.run m ≠ (.ok none, n)

section
variable {α : Type} {call : Caller} {env : Env} {l : Label}

theorem valued_some (p : Value × Value) : Valued (pure (some p)) :=
  ⟨fun _ _ h => nomatch congrArg Prod.fst h⟩

theorem valued_fail (e : RuntimeError) : Valued (fail e) :=
  ⟨fun _ _ h => nomatch congrArg Prod.fst h⟩

theorem Valued.bind {x : Eval α} {f : α → Eval Reference} (hf : ∀ v, Valued (f v)) :
    Valued (x >>= f) := by
  refine ⟨fun m n h => ?_⟩
  rcases hx : x.run m with ⟨e | v, m'⟩
  · rw [run_bind_error hx] at h
    exact nomatch congrArg Prod.fst h
  · rw [run_bind_ok hx] at h
    exact (hf v).run m' n h

theorem valued_access (keys : List Tree) (v : Value) : Valued (access call env l keys v) :=
  .bind fun _ => .bind fun _ => valued_some _

theorem valued_apply (args : List Tree) (p : Value × Value) : Valued (apply call env args p) :=
  .bind fun _ => .bind fun _ => valued_some _

theorem valued_follow (c : Tree) (args : List Tree) (p : Value × Value) :
    Valued (follow call env l c args p) := by
  unfold follow
  split
  · exact valued_access args p.1
  · exact .bind fun _ => valued_apply args p

theorem valued_ite {c : Prop} [Decidable c] {x y : Eval Reference} (hx : Valued x) (hy : Valued y) :
    Valued (if c then x else y) := by
  split
  · exact hx
  · exact hy

theorem valued_reference {n : Nat} {c : Nat → Tree} (hl : l.kind.isChain = false)
    (hm : l.chainStart = false) :
    Valued (reference call env (.node l n c)) := by
  have hseen (r : Reference) : receiver l r = some (r.getD (.undefined, .undefined)) := by
    simp [receiver, Option.filter, hl, hm]
  have h₁ {α : Type} {x : Eval α} {f : α → Value × Value} : Valued (x >>= fun v =>
      pure (some (f v))) := .bind fun _ => valued_some _
  -- kinds in their order; only links look at what ended early
  unfold reference
  dsimp only
  split
  · exact h₁
  iterate 5 exact valued_some _
  iterate 3 exact h₁
  iterate 4 exact .bind fun _ => h₁
  · exact .bind fun _ => valued_ite h₁ (valued_some _)
  · exact .bind fun _ => valued_ite (valued_some _) h₁
  · exact .bind fun _ => h₁
  · exact .bind fun _ => valued_ite h₁ h₁
  · exact .bind fun _ => .bind fun _ => h₁
  · exact .bind fun _ => h₁
  · exact h₁
  iterate 2
    refine .bind fun r => ?_
    rw [hseen]
    exact h₁
  iterate 2
    refine .bind fun r => ?_
    rw [hseen]
    exact .bind fun _ => h₁
  iterate 2
    refine .bind fun r => ?_
    rw [hseen]
    exact .bind fun _ => .bind fun _ => h₁
  · exact valued_fail _

end

/-! ## Runs of a chain -/

variable (call : Caller) (env : Env) (x : Grown)

/-- A marked link of the chain `ks` on `x` is run. It finds `v`, and the machine is `n` then. -/
structure Finds (ks : List Link) (m : Machine) (ls : List Link) (s : Link) (us : List Link)
    (v : Value) (n : Machine) : Prop where
  links : ks = ls ++ s :: us
  marked : s.label.chainStart = true
  receiver : ∃ this, (reference call env (tower x ls).toTree).run m = (.ok (some (v, this)), n)

/-- A chain that is run from `m` ends at its link `s`, and the machine is `n` from there on. -/
structure StopsAt (m : Machine) (ls : List Link) (s : Link) (us : List Link) (n : Machine) :
    Prop where
  /-- No later link finds anything. -/
  ends : ∀ vs, vs <+: us →
    (reference call env (tower x (ls ++ s :: vs)).toTree).run m = (.ok none, n)
  value : (value call env (tower x (ls ++ s :: us)).toTree).run m = (.ok .undefined, n)
  /-- Whatever the keys and arguments are, they are not run. -/
  unread : ∀ args zs, zs.map Link.label = us.map Link.label →
    (reference call env (tower x (ls ++ { s with args := args } :: zs)).toTree).run m =
    (.ok none, n)
  access : ∀ l keys, l.kind.isGet = true → l.chainStart = false →
    (reference call env (.of l ((tower x (ls ++ s :: us)).toTree :: keys))).run m =
    (access call env l keys .undefined).run n
  call : ∀ l args, l.kind = .call → l.chainStart = false →
    (reference call env (.of l ((tower x (ls ++ s :: us)).toTree :: args))).run m = (do
      noteCallee l (tower x (ls ++ s :: us)).toTree .undefined
      apply call env args (.undefined, .undefined)).run n

/-- How the chain `ks` on `x` is run from `m`. -/
structure ShortCircuits (ks : List Link) (m : Machine) : Prop where
  stops : ∀ {ls s us v n}, Finds call env x ks m ls s us v n → v.isNullish = true →
    StopsAt call env x m ls s us n
  goesOn : (∀ {ls s us v n}, Finds call env x ks m ls s us v n → v.isNullish = false) →
    Agree ((reference call env (tower x ks).toTree).run m)
      ((reference call env (tower x (ks.map Link.plain)).toTree).run m)

variable {call : Caller} {env : Env} {x : Grown} {ks ls us : List Link} {s : Link} {m n : Machine}
    {v : Value} {p : Value × Value}

theorem finds_variable (hx : x.label.kind = .name) (hm : s.label.chainStart = true)
    (hv : m.lookup env (x.label.text.getD "") = some v) :
    Finds call env x (s :: us) m [] s us v m := by
  refine ⟨rfl, hm, .undefined, ?_⟩
  obtain ⟨i, l, ts⟩ := x
  have hvariable : (variableOf env (l.text.getD "")).run m = (.ok v, m) := by
    rw [variableOf, run_bind_ok (x := MonadState.get) (m := m) (v := m) rfl,
      show m.lookup env (l.text.getD "") = some v from hv]
    rfl
  rw [tower_nil, toTree_node, Tree.of, reference]
  simp only [show l.kind = .name from hx]
  exact run_bind_ok hvariable

theorem reference_snoc {k : Link} (hk : k.label.kind.isChain = true) :
    reference call env (tower x (ks ++ [k])).toTree = reference call env (tower x ks).toTree >>=
      through k.label (follow call env k.label (tower x ks).toTree (k.args.map toTree)) := by
  rw [tower_snoc, toTree_node, List.map_cons, reference_link hk]

theorem reference_ended (hc : Linked us)
    (h : (reference call env (tower x ls).toTree).run m = (.ok none, n)) :
    (reference call env (tower x (ls ++ us)).toTree).run m = (.ok none, n) := by
  induction us using List.reverseRecOn with
  | nil => rwa [List.append_nil]
  | append_singleton us k ih =>
    have hk := hc k (by simp)
    rw [← List.append_assoc, reference_snoc hk,
      run_bind_ok (ih fun j hj => hc j (List.mem_append_left _ hj)), through_none hk]
    rfl

theorem reference_nullish (hs : s.label.kind.isChain = true) (hm : s.label.chainStart = true)
    (h : (reference call env (tower x ls).toTree).run m = (.ok (some p), n))
    (hp : p.1.isNullish = true) :
    (reference call env (tower x (ls ++ [s])).toTree).run m = (.ok none, n) := by
  rw [reference_snoc hs, run_bind_ok h, through_marked hs hm, if_pos hp]
  rfl

theorem stopsAt (hc : Linked (s :: us)) (hm : s.label.chainStart = true)
    (h : (reference call env (tower x ls).toTree).run m = (.ok (some p), n))
    (hp : p.1.isNullish = true) :
    StopsAt call env x m ls s us n := by
  obtain ⟨hs, hus⟩ := List.forall_mem_cons.mp hc
  have hstop {args : List Grown} {zs : List Link} (hzs : Linked zs) :
      (reference call env (tower x (ls ++ { s with args := args } :: zs)).toTree).run m =
        (.ok none, n) := by
    rw [List.append_cons]
    exact reference_ended hzs (reference_nullish hs hm h hp)
  have hwhole : (reference call env (tower x (ls ++ s :: us)).toTree).run m = (.ok none, n) :=
    hstop hus
  refine ⟨fun vs hvs => hstop fun k hk => hus k (hvs.subset hk), ?_,
    fun args zs hzs => hstop fun k hk => ?_, fun l keys hl hp => ?_, fun l args hl hp => ?_⟩
  · rw [value, map_eq_pure_bind, run_bind_ok hwhole]
    rfl
  · obtain ⟨j, hj, hjk⟩ :=
      List.mem_map.mp (hzs ▸ List.mem_map_of_mem hk : k.label ∈ us.map Link.label)
    rw [← hjk]
    exact hus j hj
  · rw [reference_access (Label.isGet_plain hl), run_bind_ok hwhole,
      through_plain (not_isChain_of_isGet hl) hp]
    rfl
  · rw [reference_call (Label.kind_plain_call hl), run_bind_ok hwhole,
      through_plain (by rw [hl]; rfl) hp]
    rfl

/-! ## Chains that go on -/

theorem run_noteCallee (l : Label) (c : Tree) (v : Value) (m : Machine) :
    ∃ n, (noteCallee l c v).run m = (.ok (), n) ∧ n.bare = m.bare := by
  unfold noteCallee
  split
  · exact ⟨_, rfl, rfl⟩
  · exact ⟨_, rfl, rfl⟩

section
variable (hcall : ∀ v this args, Blind (call v this args))
include hcall

theorem follow_agrees (l : Label) (c : Tree) (args : List Tree) (h : m.bare = n.bare) :
    Agree ((follow call env l c args p).run m) ((goOn call env none l args (some p)).run n) := by
  have hvalue (t : Tree) : Blind (value call env t) := closed_blind.value hcall env t
  unfold follow goOn
  split
  · have hkey : Blind (keyOf call env l args) := by
      unfold keyOf
      split
      · exact closed_blind.pure _
      · exact closed_blind.map (hvalue _)
    have haccess : Blind (access call env l args p.1) :=
      closed_blind.bind hkey fun _ _ => closed_blind.bind (closed_blind.property ..) fun _ _ =>
        closed_blind.pure _
    exact haccess.run m n h
  · have happly : Blind (apply call env args p) :=
      closed_blind.bind (closed_blind.mapM args fun t _ => hvalue t) fun _ _ =>
        closed_blind.bind (hcall ..) fun _ _ => closed_blind.pure _
    obtain ⟨m', hnote, hm'⟩ := run_noteCallee l c p.1 m
    rw [run_bind_ok hnote]
    exact happly.run m' n (hm'.trans h)

/-- A chain none of whose marked links finds null or undefined does not end early, so each of its
links is followed. -/
theorem tower_agrees (hx : Receivable x) (hv : Valued (reference call env x.toTree))
    (hc : Linked ks)
    (hopen : ∀ {ls s us v n}, Finds call env x ks m ls s us v n → v.isNullish = false) :
    Agree ((reference call env (tower x ks).toTree).run m)
      ((reference call env (tower x (ks.map Link.plain)).toTree).run m) ∧ ∀ n,
      (reference call env (tower x ks).toTree).run m ≠ (.ok none, n) := by
  induction ks using List.reverseRecOn with
  | nil => exact ⟨.refl _, hv.run m⟩
  | append_singleton ks k ih =>
    have hk := hc k (by simp)
    obtain ⟨hagree, hsome⟩ :=
      ih (fun j hj => hc j (List.mem_append_left _ hj)) fun {ls s us v n} h =>
      hopen ⟨by rw [h.links, List.append_assoc, List.cons_append], h.marked, h.receiver⟩
    have hplain : reference call env (tower x ((ks ++ [k]).map Link.plain)).toTree =
        reference call env (tower x (ks.map Link.plain)).toTree >>=
        goOn call env none k.label (k.args.map toTree) := by
      rw [List.map_append, List.map_singleton, tower_snoc]
      change reference call env
        (keeping none (node k.id k.label.plain (tower x (ks.map Link.plain) :: k.args))).toTree = _
      exact reference_goOn hk (receivable_tower hx ks).1 Bool.noConfusion
    -- a marked link is followed too, for what it finds is not nullish
    have hfollowed {q : Value × Value} {m' : Machine}
      (hrun : (reference call env (tower x ks).toTree).run m = (.ok (some q), m')) :
        through k.label (follow call env k.label (tower x ks).toTree (k.args.map toTree)) (some q) =
          follow call env k.label (tower x ks).toTree (k.args.map toTree) q := by
      cases hm : k.label.chainStart with
      | false => exact through_unmarked hm
      | true =>
        have hq : q.1.isNullish = false := hopen ⟨rfl, hm, q.2, hrun⟩
        rw [through_marked hk hm, hq]
        rfl
    rw [reference_snoc hk, hplain]
    refine ⟨hagree.bind fun r m' n' hrun h => ?_, fun n => ?_⟩
    · cases r with
      | none => exact absurd hrun (hsome m')
      | some q =>
        rw [hfollowed hrun]
        exact follow_agrees hcall _ _ _ h
    · rcases hrun : (reference call env (tower x ks).toTree).run m with ⟨e | _ | q, m'⟩
      · rw [run_bind_error hrun]
        exact fun h => nomatch congrArg Prod.fst h
      · exact absurd hrun (hsome m')
      · rw [run_bind_ok hrun, hfollowed hrun]
        exact (valued_follow ..).run m' n

theorem shortCircuits (hx : Receivable x) (hv : Valued (reference call env x.toTree))
    (hc : Linked ks) (m : Machine) :
    ShortCircuits call env x ks m where
  stops := by
    rintro ls s us v n ⟨rfl, hm, this, hrun⟩ hnull
    exact stopsAt (fun k hk => hc k (List.mem_append_right _ hk)) hm hrun hnull
  goesOn hopen := (tower_agrees hcall hx hv hc hopen).1

end

end Eval

/-! ## Chains that were read -/

namespace Arena

variable {a b : Arena} {sources : List String} {roots : List Ref} {r : Ref} {c : NodeId}
    {t : Grown} {R : Entries}

theorem exists_links (ht : t.Sound) (h : a.Holds (t.entries none + R))
    (hc : c ∈ a.chainEnds (some t.id)) :
    ∃ x ks, a.tree (some c) = (tower x ks).toTree ∧ a.spine (some c) = (ks.map Link.id).reverse ∧
      Linked ks ∧ (∀ k ∈ ks, ∃ n, a.node? (some k.id) = some n ∧ n.toLabel = k.label) ∧
      Receivable x ∧ x.Sound := by
  obtain ⟨hmem, hend⟩ := List.mem_filter.mp hc
  rw [preorder_tree h] at hmem
  obtain ⟨K, u, rfl, rfl⟩ := Forest.exists_plug hmem
  have hu : u.label.kind.isChain = true := (isChain_hole h).symm.trans (isChain_of_end hend)
  obtain ⟨x, ks, rfl, -, hks, -, hx⟩ := (sound_of_plug ht).exists_tower hu
  have hhole : a.Holds ((plug (ks.map Link.frame ++ K) x).entries none + R) := by
    rw [← plug_tower]
    exact h
  refine ⟨x, ks, tree_eq h.at_hole, ?_, hks, fun k hk => ?_, hx,
    (sound_of_tower (sound_of_plug ht)).1⟩
  · rw [spine, spineTo_tower hks _ (length_lt_size h) h]
    have hbelow : a.isChain (some x.id) = false := (isChain_hole hhole).trans hx.1
    cases a.size + 1 - ks.length <;> simp [spineTo, hbelow]
  · obtain ⟨n, hn, hlabel⟩ :=
      (labels_frame (List.mem_append_left K (List.mem_map_of_mem hk)) x).add_right (F := R)
    exact ⟨n, hhole.get hn, hlabel⟩

/-- A chain that was read ends at the first marked link that finds null or undefined, and is run
without regard to its marks if there is none. -/
theorem chain_short_circuits (hr : a.readAll sources = some (roots, b)) (hroot : r ∈ roots)
    (hc : c ∈ b.chainEnds r) :
    ∃ x ks, b.tree (some c) = (tower x ks).toTree ∧ b.spine (some c) = (ks.map Link.id).reverse ∧
      Linked ks ∧ (∀ k ∈ ks, ∃ n, b.node? (some k.id) = some n ∧ n.toLabel = k.label) ∧
      x.label.kind.isChain = false ∧ ∀ k env m, Eval.ShortCircuits (Eval.callTo k) env x ks m := by
  obtain ⟨ts, R, rfl, hts, hold⟩ := readAll_sound hr
  obtain ⟨t, ht, rfl⟩ := mem_slots.mp hroot
  obtain ⟨S, hS⟩ := holds_of_mem ht hold
  obtain ⟨x, ks, htree, hspine, hks, hlabels, hx, hs⟩ := exists_links (hts t ht).1 hS hc
  refine ⟨x, ks, htree, hspine, hks, hlabels, hx.1,
    fun k env m => Eval.shortCircuits (Eval.blind_callTo k) hx ?_ hks m⟩
  obtain ⟨i, l, us⟩ := x
  have hm : l.chainStart = false := by
    by_contra hm
    have := (sound_node.mp hs).1.marked (by simpa using hm)
    exact absurd (hx.1.symm.trans this) Bool.noConfusion
  exact Eval.valued_reference hx.1 hm

/-- One chain stands among the arguments of the other. If `o` is null, the outer one ends at its
first link. If `o` has a method, the chain is run without regard to its mark. -/
theorem chain_short_circuits_sample :
    ∃ b, ({} : Arena).readAll ["o?.m(o?.n);"] = some ([some 6], b) ∧
    (some 6 : Ref) ∈ [(some 6 : Ref)] ∧ 4 ∈ b.chainEnds (some 6) ∧
    ∃ x k l, b.tree (some 4) = (tower x [k, l]).toTree ∧ b.spine (some 4) = [l.id, k.id] ∧
      Linked [k, l] ∧ (∀ j ∈ [k, l], ∃ n, b.node? (some j.id) = some n ∧ n.toLabel = j.label) ∧
      x.label.kind.isChain = false ∧
      (∀ k' env m, Eval.ShortCircuits (Eval.callTo k') env x [k, l] m) ∧
      (let m := Machine.initial.defineGlobal "o" .null;
        Eval.Finds (Eval.callTo 0) [Machine.globals] x [k, l] m [] k [l] .null m ∧
          Eval.StopsAt (Eval.callTo 0) [Machine.globals] x m [] k [l] m) ∧
      let m := Machine.defineGlobal
        { Machine.initial with objects := #[[("m", .function (.native 0))]] } "o" (.object 0);
      Eval.Finds (Eval.callTo 0) [Machine.globals] x [k, l] m [] k [l] (.object 0) m ∧
        Eval.Agree
          ((Eval.reference (Eval.callTo 0) [Machine.globals] (tower x [k, l]).toTree).run m)
          ((Eval.reference (Eval.callTo 0) [Machine.globals]
            (tower x [k.plain, l.plain]).toTree).run m) := by
  have hread : ∃ roots b, ({} : Arena).readAll ["o?.m(o?.n);"] = some (roots, b) ∧
      roots = [some 6] ∧ 4 ∈ b.chainEnds (some 6) ∧
      b.spine (some 4) = [4, 1] ∧ b.isMarked (some 1) = true ∧ b.isMarked (some 4) = false ∧
      (((b.tree (some 4)).children.headD .absent).children.headD .absent).kind? = some .name ∧
      (((b.tree (some 4)).children.headD .absent).children.headD .absent).text = "o" :=
    exists_of_readAll (by decide +kernel)
  obtain ⟨_, b, hr, rfl, hc, hspine, hmarked, hunmarked, hkind, htext⟩ := hread
  obtain ⟨x, ks, htree, hids, hlinks, hlabels, hx, hshort⟩ :=
    chain_short_circuits hr List.mem_cons_self hc
  obtain ⟨k, l, rfl, hk, hl⟩ : ∃ k l : Link, ks = [k, l] ∧ k.id = 1 ∧ l.id = 4 := by
    have hks : ks.map Link.id = [1, 4] := by
      rw [← List.reverse_reverse (ks.map Link.id), ← hids, hspine]; rfl
    obtain ⟨k, ks, rfl, hk, hrest⟩ := List.map_eq_cons_iff.mp hks
    obtain ⟨l, ks, rfl, hl, hrest⟩ := List.map_eq_cons_iff.mp hrest
    exact ⟨k, l, by rw [List.map_eq_nil_iff.mp hrest], hk, hl⟩
  have hmarks : k.label.chainStart = true ∧ l.label.chainStart = false := by
    obtain ⟨n, hn, hlabel⟩ := hlabels k (by simp)
    obtain ⟨n', hn', hlabel'⟩ := hlabels l (by simp)
    rw [hk] at hn
    rw [hl] at hn'
    simp only [isMarked, hn, hn'] at hmarked hunmarked
    exact ⟨hlabel ▸ hmarked, hlabel' ▸ hunmarked⟩
  have hname : x.label.kind = .name ∧ x.label.text.getD "" = "o" := by
    have hlowest : ((tower x [k, l]).toTree.children.headD .absent).children.headD .absent =
        x.toTree := by
      change ((node l.id l.label (node k.id k.label (x :: k.args) :: l.args)).toTree.children.headD
        .absent).children.headD .absent = _
      simp only [toTree_node, Tree.children_of, List.map_cons, List.headD_cons]
    obtain ⟨i, n, us⟩ := x
    rw [htree, hlowest, toTree_node] at hkind htext
    exact ⟨Option.some.inj hkind, htext⟩
  have hfinds : ∀ m v, m.lookup [Machine.globals] "o" = some v →
      Eval.Finds (Eval.callTo 0) [Machine.globals] x [k, l] m [] k [l] v m :=
    fun m v hv => Eval.finds_variable hname.1 hmarks.1 (hname.2.symm ▸ hv)
  refine ⟨b, hr, List.mem_cons_self, hc, x, k, l, htree, hids, hlinks, hlabels, hx, hshort, ?_, ?_⟩
  · have hfound := hfinds (Machine.initial.defineGlobal "o" .null) .null rfl
    exact ⟨hfound, (hshort 0 _ _).stops hfound rfl⟩
  · have hfound := hfinds (Machine.defineGlobal
      { Machine.initial with objects := #[[("m", .function (.native 0))]] } "o" (.object 0)) _ rfl
    refine ⟨hfound, (hshort 0 _ _).goesOn ?_⟩
    rintro ls s us v n ⟨hsplit, hmark, this, hrun⟩
    -- only the first link is marked
    obtain ⟨rfl, rfl, rfl⟩ : ls = [] ∧ s = k ∧ us = [l] := by
      obtain _ | ⟨k', ls⟩ := ls
      · obtain ⟨rfl, rfl⟩ := List.cons.inj hsplit
        exact ⟨rfl, rfl, rfl⟩
      · obtain ⟨rfl, hrest⟩ := List.cons.inj hsplit
        obtain _ | ⟨l', ls⟩ := ls
        · obtain ⟨rfl, -⟩ := List.cons.inj hrest
          exact absurd (hmark.symm.trans hmarks.2) Bool.noConfusion
        · simp at hrest
    obtain ⟨that, hrun'⟩ := hfound.receiver
    have hsame := Prod.mk.inj (hrun.symm.trans hrun')
    rw [(Prod.mk.inj (Option.some.inj (Except.ok.inj hsame.1))).1]
    rfl

end Arena

end ChainLowering
