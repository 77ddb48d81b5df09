import ChainLowering.Proofs.ReadRules

/-!
# Trees that are read

Whatever the reader finishes is a tree of the grammar. A reader is told by the
part that it finishes, and readers of deeper levels are taken for granted.
-/

namespace ChainLowering

open ChainLowering.Tree

namespace Reader

variable {α : Type} {P : Tree → Prop} {s : List Tree}

/-- Finishes one tree. -/
def Reads (P : Tree → Prop) (x : TreeRead α) : Prop :=
  ∀ s, Stacks x s fun _ s' => ∃ t, P t ∧ s' = t :: s

/-- Finishes some trees, the newest on top. -/
def ReadsMany (P : Tree → Prop) (x : TreeRead α) : Prop :=
  ∀ s, Stacks x s fun _ s' => ∃ ts, (∀ t ∈ ts, P t) ∧ s' = ts ++ s

theorem Reads.mono {Q : Tree → Prop} {x : TreeRead α} (h : Reads P x) (hPQ : ∀ t, P t → Q t) :
    Reads Q x :=
  fun s => (h s).mono fun _ _ ⟨t, ht, e⟩ => ⟨t, hPQ t ht, e⟩

theorem Reads.then {β : Type} {x : TreeRead α} {f : α → TreeRead β} {Q : β → List Tree → Prop}
    (h : Reads P x) (hf : ∀ v t, P t → Stacks (f v) (t :: s) Q) : Stacks (x >>= f) s Q :=
  .bind ((h s).mono fun v _ ⟨t, ht, e⟩ => e ▸ hf v t ht)

theorem Reads.many {x : TreeRead α} (h : Reads P x) : ReadsMany P x :=
  fun s => (h s).mono fun _ _ ⟨t, ht, e⟩ => ⟨[t], by simpa using ht, e⟩

theorem Keeps.many {x : TreeRead α} (h : Keeps x) : ReadsMany P x :=
  fun s => (h s).mono fun _ _ e => ⟨[], by simp, e⟩

theorem ReadsMany.bind {β : Type} {x : TreeRead α} {f : α → TreeRead β} (h : ReadsMany P x)
    (hf : ∀ v, ReadsMany P (f v)) :
    ReadsMany P (x >>= f) := by
  intro s
  refine .bind ((h s).mono ?_)
  rintro v - ⟨ts, hts, rfl⟩
  refine (hf v _).mono ?_
  rintro u - ⟨us, hus, rfl⟩
  refine ⟨us ++ ts, ?_, by rw [List.append_assoc]⟩
  intro t ht
  rcases List.mem_append.mp ht with ht | ht
  · exact hus t ht
  · exact hts t ht

theorem readsMany_ite {c : Prop} [Decidable c] {x y : TreeRead α} (hx : ReadsMany P x)
    (hy : ReadsMany P y) :
    ReadsMany P (if c then x else y) := by
  split_ifs
  · exact hx
  · exact hy

theorem readsMany_repeatedly {step : TreeRead Bool} (h : ReadsMany P step) :
    ReadsMany P (repeatedly step) := by
  intro s
  refine (stacks_repeatedly (I := fun s' => ∃ ts, (∀ t ∈ ts, P t) ∧ s' = ts ++ s) ?_
    ⟨[], by simp, rfl⟩)
  rintro - ⟨ts, hts, rfl⟩
  refine (h _).mono ?_
  rintro b - ⟨us, hus, rfl⟩
  refine ⟨us ++ ts, ?_, by rw [List.append_assoc]⟩
  intro t ht
  rcases List.mem_append.mp ht with ht | ht
  · exact hus t ht
  · exact hts t ht

theorem ReadsMany.counted {β : Type} {x : TreeRead Unit} {f : Nat → TreeRead β}
    {Q : β → List Tree → Prop} (h : ReadsMany P x) (hf : ∀ ts, (∀ t ∈ ts, P t) →
      Stacks (f ts.length) (ts ++ s) Q) : Stacks (counted x >>= f) s Q := by
  refine .bind (stacks_counted ((h s).mono ?_))
  rintro - - ⟨ts, hts, rfl⟩
  rw [List.length_append, Nat.add_sub_cancel]
  exact hf ts hts

theorem stacks_node {l : Label} {start : Nat} (ts : List Tree)
    (hP : ∀ stop, P (.of { l with start := some start, stop := some stop } ts.reverse)) :
    Stacks (finish l start ts.length) (ts ++ s) fun _ s' => ∃ t, P t ∧ s' = t :: s := by
  refine stacks_finish fun stop => ⟨_, hP stop, ?_⟩
  rw [List.take_left, List.drop_left]

theorem Stacks.one {β : Type} {x : TreeRead α} {f : α → TreeRead β} {s' : List Tree}
    {Q : β → List Tree → Prop} (h : Stacks x s fun _ u => ∃ t, P t ∧ u = t :: s')
    (hf : ∀ v t, P t → Stacks (f v) (t :: s') Q) :
    Stacks (x >>= f) s Q :=
  .bind (h.mono fun v _ ⟨t, ht, e⟩ => e ▸ hf v t ht)

theorem stacks_many {part q : Part} {l : Label} {start : Nat} {ts : List Tree}
    (rule : Rule part l.bare (List.replicate ts.length q)) (h : ∀ t ∈ ts, Is q t) :
    Stacks (finish l start ts.length) (ts ++ s) fun _ s' => ∃ t, Is part t ∧ s' = t :: s := by
  refine stacks_node ts fun stop => is_of rule (forall₂_replicate.mpr ⟨List.length_reverse, ?_⟩)
  exact fun t ht => h t (List.mem_reverse.mp ht)

theorem stacks_leaf {part : Part} {l : Label} {start : Nat} (rule : Rule part l.bare []) :
    Stacks (finish l start 0) s fun _ s' => ∃ t, Is part t ∧ s' = t :: s :=
  stacks_node [] fun _ => is_of rule .nil

theorem reads_nameNode : Reads (Is .name) nameNode := by
  intro s
  refine keeps_position.then fun start => .bind (stacks_identifier.mono ?_)
  rintro w - ⟨hw, rfl⟩
  exact stacks_leaf (.name hw)

/-- Readers of deeper levels that finish what they should. -/
structure Nested.Good (p : NestedTrees) : Prop where
  statement : Reads (Is .statement) p.statement
  assignment : Reads (Is .expression) p.assignment
  operand : Reads (Is .expression) p.operand

variable {p : NestedTrees}

theorem readsMany_separated {close : Punct} {item : TreeRead Unit} (h : Reads P item) :
    ReadsMany P (separated close item) := by
  refine .bind (readsMany_repeatedly ?_) fun _ => (keeps_expect _).many
  refine .bind (keeps_at? _).many fun b => readsMany_ite (keeps_pure _).many ?_
  exact .bind h.many fun _ => (keeps_eat _).many

theorem reads_block (hp : p.Good) : Reads (Is .block) (block p) := by
  intro s
  refine keeps_position.then fun start => (keeps_expect _).then fun _ => ?_
  refine ReadsMany.counted (P := Is .statement) (readsMany_repeatedly ?_) fun ts hts => ?_
  · refine .bind (keeps_at? _).many fun b => readsMany_ite (keeps_pure _).many ?_
    have hrest : ReadsMany (Is .statement) (do p.statement; return true) :=
      .bind hp.statement.many fun _ => (keeps_pure _).many
    exact .bind keeps_atEnd.many fun b =>
      readsMany_ite (.bind (keeps_unexpected _).many fun _ => hrest) hrest
  · exact keeps_advance.then fun _ => stacks_many (.block _) hts

theorem reads_branch (hp : p.Good) : Reads (Is .block) (branch p) := by
  intro s
  refine (keeps_at? _).then fun b => ?_
  split_ifs
  · exact reads_block hp s
  · refine keeps_position.then fun start => hp.statement.then fun _ t ht => ?_
    exact stacks_node [t] fun stop => is_of (.block 1) (.cons ht .nil)

theorem stacks_binding (hp : p.Good) {x : TreeRead α} {Q : α → List Tree → Prop}
    (hx : ∀ t, Is .binding t → Stacks x (t :: s) Q) : Stacks (do
      let nameStart ← position
      let name ← identifier
      let n ← counted do
        if ← eat .assign then p.assignment
      finish { kind := .name, text := some name } nameStart n
      x) s Q := by
  refine keeps_position.then fun nameStart => .bind (stacks_identifier.mono ?_)
  rintro w s' ⟨hw, e⟩
  rw [e]
  refine .bind (stacks_counted ((keeps_eat _).then fun b => ?_))
  split_ifs
  · refine (hp.assignment _).mono ?_
    rintro - - ⟨t, ht, rfl⟩
    rw [List.length_cons, Nat.add_sub_cancel_left]
    exact .one (stacks_node [t] fun stop => is_of (.binding 1 hw (Nat.le_refl _)) (.cons ht .nil))
      fun _ => hx
  · refine stacks_pure ?_
    rw [Nat.sub_self]
    exact .one (stacks_leaf (.binding 0 hw (Nat.zero_le _))) fun _ => hx

theorem reads_declaration (hp : p.Good) {k : Kind} (hk : k.isDeclaration = true) (start : Nat) :
    Reads (Is .statement) (declaration p k start) := by
  intro s
  -- every round finishes a binding, the last one too
  refine .bind
    (stacks_counted
      (Stacks.mono (P := fun _ s' => ∃ ts, ts ≠ [] ∧ (∀ t ∈ ts, Is .binding t) ∧ s' = ts ++ s) ?_
        ?_))
  · refine stacks_iterate (I := fun _ s' => ∃ ts, (∀ t ∈ ts, Is .binding t) ∧ s' = ts ++ s)
      ?_ ⟨[], by simp, rfl⟩
    rintro - - ⟨ts, hts, rfl⟩
    refine .bind (stacks_binding hp fun t ht => (keeps_eat _).stacks fun b => stacks_pure ?_)
    have hall : ∀ u ∈ t :: ts, Is .binding u := List.forall_mem_cons.mpr ⟨ht, hts⟩
    cases b
    · exact ⟨t :: ts, List.cons_ne_nil _ _, hall, rfl⟩
    · exact ⟨t :: ts, hall, rfl⟩
  · rintro - - ⟨ts, hne, hts, rfl⟩
    rw [List.length_append, Nat.add_sub_cancel]
    refine (keeps_eat _).then fun _ => stacks_many ?_ hts
    obtain ⟨t, ts, rfl⟩ := List.exists_cons_of_ne_nil hne
    exact .declaration ts.length hk

theorem reads_function (hp : p.Good) {must : Bool} {part : Part}
    (hname : Rule part { kind := .function } [.name, .parameters, .block])
    (hunnamed : must = true ∨ Rule part { kind := .function } [.unnamed, .parameters, .block]) :
    Reads (Is part) (function p must) := by
  intro s
  have hrest : ∀ q start n, Rule part { kind := .function } [q, .parameters, .block] →
    Is q n → Stacks (do
      let paramsStart ← position
      expect .leftParen
      let n ← counted (separated .rightParen nameNode)
      finish { kind := .paramList } paramsStart n
      block p
      finish { kind := .function } start 3) (n :: s) fun _ s' => ∃ t, Is part t ∧ s' = t :: s := by
    intro q start n rule hn
    refine keeps_position.then fun paramsStart => (keeps_expect _).then fun _ => ?_
    refine (readsMany_separated reads_nameNode).counted fun ts hts => ?_
    refine .one (stacks_many (.parameters _) hts) fun _ ps hps =>
      (reads_block hp).then fun _ b hb => ?_
    exact stacks_node [b, ps, n] fun stop => is_of rule (.cons hn (.cons hps (.cons hb .nil)))
  refine keeps_position.then fun start => keeps_advance.then fun _ => (keeps_at? _).then fun b => ?_
  split_ifs with hb
  · exact reads_nameNode.then fun _ n hn => hrest _ start n hname hn
  · rcases hunnamed with rfl | hunnamed
    · exact absurd rfl hb
    · exact .bind (stacks_push (hrest .unnamed start _ hunnamed (is_of .unnamed .nil)))

theorem reads_rounds {x : TreeRead α} {step : TreeRead Bool} (hx : Reads P x)
    (hstep : ∀ t s, P t → Stacks step (t :: s) fun _ s' => ∃ t, P t ∧ s' = t :: s) :
    Reads P (x >>= fun _ => repeatedly step) := by
  intro s
  refine hx.then fun _ t ht => ?_
  refine stacks_repeatedly (I := fun s' => ∃ t, P t ∧ s' = t :: s) ?_ ⟨t, ht, rfl⟩
  rintro - ⟨u, hu, rfl⟩
  exact hstep u s hu

theorem stacks_binary {k : Kind} {start : Nat} {t u : Tree} (hk : k.isBinary = true)
    (ht : Is .expression t) (hu : Is .expression u) :
    Stacks (finish { kind := k } start 2) (u :: t :: s) fun _ s' =>
      ∃ t, Is .expression t ∧ s' = t :: s :=
  stacks_node [u, t] fun _ => is_of (.binary hk) (.cons ht (.cons hu .nil))

theorem reads_expression (hp : p.Good) : Reads (Is .expression) (expression p) := by
  intro s
  refine keeps_position.then fun start => reads_rounds hp.assignment ?_ s
  intro t s ht
  refine (keeps_eat _).then fun b => ?_
  split_ifs
  · exact stacks_pure ⟨t, ht, rfl⟩
  · exact hp.assignment.then fun _ u hu =>
      .bind ((stacks_binary rfl ht hu).mono fun _ _ h => stacks_pure h)

theorem reads_returnStatement (hp : p.Good) (start : Nat) :
    Reads (Is .statement) (returnStatement p start) := by
  intro s
  have hvalue : Stacks (do
      if !(← at? .semicolon) && !(← at? .rightBrace) && !(← atEnd) then expression p) s fun _ s' =>
        ∃ ts, ts.length ≤ 1 ∧ (∀ t ∈ ts, Is .expression t) ∧ s' = ts ++ s := by
    refine (keeps_at? _).then fun _ => (keeps_at? _).then fun _ => keeps_atEnd.then fun _ => ?_
    split_ifs
    · refine (reads_expression hp s).mono ?_
      rintro - - ⟨t, ht, rfl⟩
      exact ⟨[t], Nat.le_refl _, by simpa using ht, rfl⟩
    · exact stacks_pure ⟨[], Nat.zero_le _, by simp, rfl⟩
  refine .bind (stacks_counted (hvalue.mono ?_))
  rintro - - ⟨ts, hone, hts, rfl⟩
  rw [List.length_append, Nat.add_sub_cancel]
  exact (keeps_eat _).then fun _ => stacks_many (.returns _ hone) hts

theorem reads_ifStatement (hp : p.Good) (start : Nat) :
    Reads (Is .statement) (ifStatement p start) := by
  intro s
  have hbranches : ∀ s, Stacks (do
      expect .rightParen
      branch p
      if ← atWord "else" then
        let _ ← advance
        branch p) s fun _ s' => ∃ n ts, n ≤ 1 ∧ ts.length = n + 1 ∧ (∀ t ∈ ts, Is .block t) ∧
          s' = ts ++ s := by
    intro s
    refine (keeps_expect _).then fun _ => (reads_branch hp).then fun _ t ht =>
      (keeps_atWord _).then fun _ => ?_
    split_ifs
    · refine keeps_advance.then fun _ => (reads_branch hp _).mono ?_
      rintro - - ⟨u, hu, rfl⟩
      exact ⟨1, [u, t], Nat.le_refl _, rfl, by simpa using ⟨hu, ht⟩, rfl⟩
    · exact stacks_pure ⟨0, [t], Nat.zero_le _, rfl, by simpa using ht, rfl⟩
  refine (keeps_expect _).then fun _ => .bind (stacks_counted ?_)
  refine (reads_expression hp).then fun _ t ht => (hbranches _).mono ?_
  rintro - - ⟨n, ts, hone, hlen, hts, rfl⟩
  have hall : (ts ++ t :: s).length - s.length = (ts ++ [t]).length := by
    simp only [List.length_append, List.length_cons, List.length_nil]
    omega
  rw [hall, List.append_cons ts t s]
  refine stacks_node (ts ++ [t]) fun stop => is_of (.chooses n hone) ?_
  rw [List.reverse_append, List.reverse_singleton, List.singleton_append]
  refine .cons ht (forall₂_replicate.mpr ⟨by rw [List.length_reverse, hlen], ?_⟩)
  exact fun u hu => hts u (List.mem_reverse.mp hu)

theorem isDeclaration_of_declarationKind? {t : Tok} {k : Kind} (h : declarationKind? t = some k) :
    k.isDeclaration = true := by
  unfold declarationKind? at h
  split at h <;> first | (obtain rfl := Option.some.inj h; rfl) | cases h

theorem is_statement_of_block {t : Tree} (h : Is .block t) : Is .statement t := by
  cases h with
  | of rule hlen children => exact .of (.inner rule) hlen children

theorem reads_statement (hp : p.Good) : Reads (Is .statement) (statement p) := by
  intro s
  refine keeps_position.then fun start => (keeps_at? _).then fun _ => ?_
  split_ifs
  · exact ((reads_block hp).mono fun _ => is_statement_of_block) s
  refine (keeps_eat _).then fun _ => ?_
  split_ifs
  · exact stacks_leaf .empty
  refine keeps_peek.then fun t => ?_
  cases hk : declarationKind? t.tok with
  | some k =>
      exact keeps_advance.then fun _ =>
        reads_declaration hp (isDeclaration_of_declarationKind? hk) start s
  | none =>
    refine (keeps_atWord _).then fun _ => ?_
    split_ifs
    · exact reads_function hp (.named .function) (.inl rfl) s
    refine (keeps_atWord _).then fun _ => ?_
    split_ifs
    · exact keeps_advance.then fun _ => reads_returnStatement hp start s
    refine (keeps_atWord _).then fun _ => ?_
    split_ifs
    · exact keeps_advance.then fun _ => reads_ifStatement hp start s
    refine (reads_expression hp).then fun _ t ht => (keeps_eat _).then fun _ => ?_
    exact stacks_node [t] fun stop => is_of .evaluates (.cons ht .nil)

/-! ## Expressions -/

theorem reads_objectLiteral (hp : p.Good) : Reads (Is .expression) (objectLiteral p) := by
  intro s
  refine keeps_position.then fun start => (keeps_expect _).then fun _ => ?_
  refine ReadsMany.counted (P := Is .entry) (readsMany_separated ?_) fun ts hts =>
    stacks_many (.object _) hts
  intro s
  have hrest : ∀ keyStart key, Stacks (do
      expect .colon
      p.assignment
      finish { kind := .objectKey, text := some key } keyStart 1) s fun _ s' => ∃ t, Is .entry t ∧
        s' = t :: s := by
    intro keyStart key
    refine (keeps_expect _).then fun _ => hp.assignment.then fun _ t ht => ?_
    exact stacks_node [t] fun stop => is_of (.entry key) (.cons ht .nil)
  refine keeps_position.then fun keyStart => keeps_peek.then fun t => ?_
  cases t.tok with
  | string w => exact keeps_advance.then fun _ => (keeps_pure w).then (hrest keyStart)
  | _ => exact .bind (stacks_propertyName.mono fun key s' h => h.2 ▸ hrest keyStart key)

theorem isConstant_of_constantKind? {w : String} {k : Kind} (h : constantKind? w = some k) :
    k.isConstant = true := by
  unfold constantKind? at h
  split at h <;> first | (obtain rfl := Option.some.inj h; rfl) | cases h

theorem is_expression_of_name {t : Tree} (h : Is .name t) : Is .expression t := by
  cases h with
  | of rule hlen children => exact .of (.variable rule) hlen children

theorem reads_primary (hp : p.Good) : Reads (Is .expression) (primary p) := by
  intro s
  refine keeps_position.then fun start => .bind (stacks_peek fun t ht => ?_)
  split
  · refine keeps_advance.then fun _ => (reads_expression hp).then fun _ t ht => ?_
    exact (keeps_expect _).stacks fun _ => ⟨t, ht, rfl⟩
  · exact reads_objectLiteral hp s
  · rename_i w hw
    rw [hw] at ht
    exact keeps_advance.then fun _ => stacks_leaf (.number ht)
  · exact keeps_advance.then fun _ => stacks_leaf (.string _)
  · split
    · exact keeps_advance.then fun _ => stacks_leaf (.constant (isConstant_of_constantKind? ‹_›))
    · split_ifs
      · exact reads_function hp (.closure .function) (.inr .anonymous) s
      · exact (reads_nameNode.mono fun _ => is_expression_of_name) s
  · exact stacks_unexpected

theorem reads_key (hp : p.Good) : Reads (Is .expression) (key p) := by
  intro s
  refine (reads_expression hp).then fun _ t ht => ?_
  exact (keeps_expect _).stacks fun _ => ⟨t, ht, rfl⟩

/-- What a link is put on, where `inChain` tells whether a `?.` came before. -/
def standing (inChain : Bool) : Part := if inChain then .chain else .expression

theorem is_expression_of_standing {inChain : Bool} {t : Tree} (h : Is (standing inChain) t) :
    Is .expression t := by
  cases inChain with
  | false => exact h
  | true =>
    cases h with
    | of rule hlen children =>
      cases rule with
      | chain rule => exact .of rule hlen children

theorem stacks_linkNode {l : Label} {start : Nat} {q : Part} {t : Tree} {ts : List Tree}
    (inChain : Bool) (rule : Rule .expression l.bare (q :: List.replicate ts.length .expression))
    (hc : inChain = true → l.kind.isChain = true) (ht : Is q t) (hts : ∀ u ∈ ts, Is .expression u) :
    Stacks (finish l start (ts.length + 1)) (ts ++ t :: s) fun _ s' => ∃ u,
      Is (standing inChain) u ∧ s' = u :: s := by
  have hn : ts.length + 1 = (ts ++ [t]).length := by simp
  have hs : ts ++ t :: s = (ts ++ [t]) ++ s := by simp
  rw [hn, hs]
  have hrule : Rule (standing inChain) l.bare (q :: List.replicate ts.length .expression) := by
    cases inChain with
    | false => exact rule
    | true => exact .chain rule (hc rfl)
  refine stacks_node (ts ++ [t]) fun stop => is_of hrule ?_
  rw [List.reverse_append, List.reverse_singleton, List.singleton_append]
  refine .cons ht (forall₂_replicate.mpr ⟨List.length_reverse, ?_⟩)
  exact fun u hu => hts u (List.mem_reverse.mp hu)

/-- What `link` leaves behind, where the answer tells whether a `?.` has come. -/
def Linking (s : List Tree) (o : Option Bool) (s' : List Tree) : Prop :=
  o.elim (∃ t, Is .expression t ∧ s' = t :: s) fun c => ∃ t, Is (standing c) t ∧ s' = t :: s

theorem stacks_link (hp : p.Good) (start : Nat) (inChain : Bool) {t : Tree}
    (ht : Is (standing inChain) t) :
    Stacks (link p start inChain) (t :: s) (Linking s) := by
  have hmarked : ∀ {k text} (ts : List Tree), k.isChain = true →
      Rule .expression { kind := k, text := text, chainStart := true }
        (.receiver k true :: List.replicate ts.length .expression) →
      (∀ u ∈ ts, Is .expression u) → Stacks (do
        finish { kind := k, text := text, chainStart := true } start (ts.length + 1)
        return some true) (ts ++ t :: s) (Linking s) := by
    intro k text ts hk rule hts
    have ht' : Is (.receiver k true) t := by
      rw [Part.receiver, Bool.not_true, Bool.and_false]
      exact is_expression_of_standing ht
    exact .one (stacks_linkNode true rule (fun _ => hk) ht' hts) fun _ u hu =>
      stacks_pure ⟨u, hu, rfl⟩
  have hother : ∀ {k text} (ts : List Tree), k.isChain = inChain →
      Rule .expression { kind := k, text := text }
        (.receiver k false :: List.replicate ts.length .expression) →
      (∀ u ∈ ts, Is .expression u) → Stacks (do
        finish { kind := k, text := text } start (ts.length + 1)
        return some inChain) (ts ++ t :: s) (Linking s) := by
    intro k text ts hk rule hts
    have ht' : Is (.receiver k false) t := by
      rw [Part.receiver, hk, Bool.not_false, Bool.and_true]
      exact ht
    exact .one (stacks_linkNode inChain rule (fun h => hk.trans h) ht' hts) fun _ u hu =>
      stacks_pure ⟨u, hu, rfl⟩
  have hargs : ReadsMany (Is .expression) (separated .rightParen p.assignment) :=
    readsMany_separated hp.assignment
  -- in the order in which links are tried, those with a mark first
  refine (keeps_eat _).then fun _ => stacks_ite ?_ ?_
  · refine (keeps_eat _).then fun _ => stacks_ite ?_ ?_
    · exact hargs.counted fun ts hts => hmarked ts rfl (.call _ (.inr rfl) fun _ => rfl) hts
    refine (keeps_eat _).then fun _ => stacks_ite ?_ ?_
    · exact (reads_key hp).then fun _ u hu =>
        hmarked [u] rfl (.element (.inr rfl) fun _ => rfl) (by simpa using hu)
    · refine .bind (stacks_propertyName.mono ?_)
      rintro w - ⟨hw, rfl⟩
      exact hmarked [] rfl (.property (.inr rfl) (fun _ => rfl) hw) (by simp)
  refine (keeps_eat _).then fun _ => stacks_ite ?_ ?_
  · refine .bind (stacks_propertyName.mono ?_)
    rintro w - ⟨hw, rfl⟩
    refine hother [] ?_ (.property ?_ (fun h => nomatch h) hw) (by simp) <;> cases inChain <;>
      simp [Kind.chain?, Kind.isChain]
  refine (keeps_eat _).then fun _ => stacks_ite ?_ ?_
  · refine (reads_key hp).then fun _ u hu =>
      hother [u] ?_ (.element ?_ fun h => nomatch h) (by simpa using hu)
    all_goals cases inChain <;> simp [Kind.chain?, Kind.isChain]
  refine (keeps_eat _).then fun _ => stacks_ite ?_ ?_
  · refine hargs.counted fun ts hts => hother ts ?_ (.call _ ?_ fun h => nomatch h) hts
    all_goals cases inChain <;> simp [Kind.chain?, Kind.isChain]
  · exact stacks_pure ⟨t, is_expression_of_standing ht, rfl⟩

theorem reads_linked (hp : p.Good) : Reads (Is .expression) (linked p) := by
  intro s
  refine keeps_position.then fun start => (reads_primary hp).then fun _ t ht => ?_
  refine stacks_iterate (I := fun c s' => ∃ t, Is (standing c) t ∧ s' = t :: s) ?_ ⟨t, ht, rfl⟩
  rintro c - ⟨u, hu, rfl⟩
  exact stacks_link hp start c hu

theorem reads_unary (hp : p.Good) : Reads (Is .expression) (unary p) := by
  intro s
  have hoperand : ∀ {k start}, k.isUnary = true → Stacks (do
      p.operand
      finish { kind := k } start 1) s fun _ s' => ∃ t, Is .expression t ∧ s' = t :: s :=
    fun hk => hp.operand.then fun _ t ht => stacks_node [t] fun _ =>
      is_of (.unary hk) (.cons ht .nil)
  refine keeps_position.then fun start => (keeps_eat _).then fun _ => stacks_ite (hoperand rfl) ?_
  refine (keeps_atWord _).then fun _ => stacks_ite ?_ (reads_linked hp s)
  exact keeps_advance.then fun _ => hoperand rfl

theorem reads_leftNested {operators : List (Punct × Kind)} {operand : TreeRead Unit}
    (hx : Reads (Is .expression) operand) (ho : ∀ o ∈ operators, o.2.isBinary = true) :
    Reads (Is .expression) (leftNested operators operand) := by
  intro s
  refine keeps_position.then fun start => reads_rounds hx ?_ s
  intro t s ht
  refine keeps_peek.then fun k => ?_
  cases hk : operators.find? (fun o => k.tok = .punct o.1) with
  | none => exact stacks_pure ⟨t, ht, rfl⟩
  | some o =>
    have hl := ho o (List.mem_of_find?_eq_some hk)
    refine keeps_advance.then fun _ => hx.then fun _ u hu =>
      .bind ((stacks_binary hl ht hu).mono ?_)
    exact fun _ _ h => stacks_pure h

theorem reads_disjunction (hp : p.Good) : Reads (Is .expression) (disjunction p) :=
  reads_leftNested (reads_leftNested (reads_leftNested (reads_unary hp) (by decide)) (by decide))
    (by decide)

theorem reads_conditional (hp : p.Good) : Reads (Is .expression) (conditional p) := by
  intro s
  refine keeps_position.then fun start => (reads_disjunction hp).then fun _ t ht => ?_
  refine (keeps_eat _).then fun _ => stacks_ite ?_ (stacks_pure ⟨t, ht, rfl⟩)
  refine hp.assignment.then fun _ u hu => (keeps_expect _).then fun _ =>
    hp.assignment.then fun _ v hv => ?_
  exact stacks_node [v, u, t] fun stop => is_of .hook (.cons ht (.cons hu (.cons hv .nil)))

theorem is_target {t : Tree} (h : Is .expression t) (ht : isAssignable t.kind? = true) :
    Is .target t := by
  cases h with
  | @of _ l _ _ rule hlen children =>
    have hl : l.kind = .name ∨ l.kind.isGet = true := by
      simpa [isAssignable, Tree.of, Tree.kind?] using ht
    exact .of (.target rule hl) hlen children

theorem reads_assignment (hp : p.Good) : Reads (Is .expression) (assignment p) := by
  intro s
  refine keeps_position.then fun start => (reads_conditional hp).then fun _ t ht => ?_
  refine (keeps_at? _).then fun _ => stacks_ite ?_ (stacks_pure ⟨t, ht, rfl⟩)
  refine .bind (stacks_get fun r _ hr => ?_)
  rw [hr]
  split_ifs with hassign
  · exact .bind stacks_throw
  · refine keeps_advance.then fun _ => hp.assignment.then fun _ u hu => ?_
    have ht' := is_target ht (by simpa using hassign)
    exact stacks_node [u, t] fun stop => is_of .assign (.cons ht' (.cons hu .nil))

theorem good_nested (n : Nat) : (nested n).Good := by
  induction n with
  | zero => exact ⟨fun _ => stacks_throw, fun _ => stacks_throw, fun _ => stacks_throw⟩
  | succ n ih =>
    exact ⟨fun s => stacks_deeper (reads_statement ih s),
      fun s => stacks_deeper (reads_assignment ih s), fun s => stacks_deeper (reads_unary ih s)⟩

theorem reads_script : Reads (Is .script) script := by
  intro s
  refine ReadsMany.counted (P := Is .statement) (readsMany_repeatedly ?_) fun ts hts =>
    stacks_many (.script _) hts
  refine .bind keeps_atEnd.many fun b => readsMany_ite (keeps_pure _).many ?_
  exact .bind (good_nested _).statement.many fun _ => (keeps_pure _).many

end Reader

end ChainLowering
