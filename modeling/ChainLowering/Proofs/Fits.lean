import ChainLowering.Proofs.Grammar

/-!
# What lowering needs of a tree

A tree is sound if links have something to be put on, a segment that is not
marked goes on with a chain, only links of chains are marked, a chain is no
statement, and what is declared is a name. The trees of the grammar are sound.
-/

namespace ChainLowering

/-- The kind of all children, where there is only one. -/
def Kind.holds? : Kind → Option Kind
  | .varDecl | .letDecl | .constDecl | .paramList => some .name
  | .objectLit => some .objectKey
  | _ => none

/-- Where no link of a chain may stand: in the place of a statement or of what is assigned to. -/
def Kind.bars : Kind → Nat → Bool
  | .script, _ | .block, _ => true
  | .assign, i => i == 0
  | .ifStmt, i => i != 0
  | _, _ => false

def Kind.barsSome (k : Kind) : Bool := k.bars 0 || k.bars 1

theorem Kind.barsSome_of_bars {k : Kind} {i : Nat} (h : k.bars i = true) : k.barsSome = true := by
  cases k <;> first | rfl | cases h

theorem Kind.bars_of_ownsStatements {k : Kind} (h : k.ownsStatements = true) (i : Nat) :
    k.bars i = true := by
  cases k <;> first | rfl | cases h

theorem Kind.barsSome_of_ownsStatements {k : Kind} (h : k.ownsStatements = true) :
    k.barsSome = true := by
  cases k <;> first | rfl | cases h

theorem Kind.isChain_of_holds {k j : Kind} (h : k.holds? = some j) : j.isChain = false := by
  cases k <;> first | (obtain rfl := Option.some.inj h; rfl) | cases h

namespace Tree

/-- What a node asks of its children. -/
structure Fits (l : Label) (ts : List Tree) : Prop where
  marked : l.chainStart = true → l.kind.isChain = true
  link : l.kind.isLink = true → ts ≠ []
  goesOn : l.kind.isChain = true → l.chainStart = false → ∀ t ∈ ts.head?, t.isChain = true
  barred : ∀ i, l.kind.bars i = true → ∀ t ∈ ts[i]?, t.isChain = false
  kinds : ∀ k ∈ l.kind.holds?, ∀ t ∈ ts, t.kind? = some k
  function : l.kind = .function →
    ∃ n p b, ts = [n, p, b] ∧ n.kind? = some .name ∧ p.kind? = some .paramList ∧
    b.kind? = some .block

inductive Sound : Tree → Prop
  | of {l : Label} {ts : List Tree} (fits : Fits l ts) (children : ∀ t ∈ ts, Sound t) :
      Sound (.of l ts)

/-- Most nodes ask nothing. -/
def undemanding (l : Label) : Bool :=
  !l.chainStart && !l.kind.isLink && !l.kind.barsSome && l.kind.holds?.isNone && l.kind != .function

theorem isLink_of_isGet {k : Kind} (h : k.isGet = true) : k.isLink = true := by
  cases k <;> first | rfl | cases h

theorem isChain_of_isLink {k : Kind} (h : k.isChain = true) : k.isLink = true := by
  cases k <;> first | rfl | cases h

theorem Fits.of_undemanding {l : Label} (h : undemanding l = true) (ts : List Tree) :
    Fits l ts := by
  simp only [undemanding, Bool.and_eq_true, Bool.not_eq_true', bne_iff_ne] at h
  obtain ⟨⟨⟨⟨hm, hl⟩, ho⟩, hb⟩, hf⟩ := h
  refine ⟨?_, ?_, ?_, ?_, ?_, fun e => absurd e hf⟩
  · rw [hm]; exact fun e => nomatch e
  · rw [hl]; exact fun e => nomatch e
  · intro hc
    rw [isChain_of_isLink hc] at hl
    cases hl
  · intro i hi
    rw [Kind.barsSome_of_bars hi] at ho
    cases ho
  · rw [Option.isNone_iff_eq_none.mp hb]; exact fun k hk => nomatch hk

theorem Fits.of_bars {l : Label} {ts : List Tree} (hm : l.chainStart = false)
    (hk : l.kind.barsSome = true) (h : ∀ i, l.kind.bars i = true → ∀ t ∈ ts[i]?,
      t.isChain = false) : Fits l ts := by
  refine ⟨fun e => ?_, fun e => ?_, fun e => ?_, h, fun j e => ?_, fun e => ?_⟩
  · rw [hm] at e; cases e
  all_goals exfalso; generalize l.kind = k at hk e; cases k <;> cases e <;> cases hk

theorem Fits.of_owner {l : Label} {ts : List Tree} (hm : l.chainStart = false)
    (hk : l.kind.ownsStatements = true) (h : ∀ t ∈ ts, t.isChain = false) : Fits l ts :=
  .of_bars hm (Kind.barsSome_of_ownsStatements hk) fun _ _ t ht => h t (List.mem_of_getElem? ht)

theorem Fits.of_holds {l : Label} {ts : List Tree} {k : Kind} (hm : l.chainStart = false)
    (hk : l.kind.holds? = some k) (h : ∀ t ∈ ts, t.kind? = some k) : Fits l ts := by
  refine ⟨fun e => ?_, fun e => ?_, fun e => ?_, fun _ e => ?_, fun j e => ?_, fun e => ?_⟩
  · rw [hm] at e; cases e
  · exfalso; generalize l.kind = k at hk e; cases k <;> cases e <;> cases hk
  · exfalso; generalize l.kind = k at hk e; cases k <;> cases e <;> cases hk
  · exfalso; generalize l.kind = k at hk e; cases k <;> cases hk <;> cases e
  · obtain rfl := Option.some.inj (hk.symm.trans e)
    exact h
  · exfalso; rw [e] at hk; cases hk

theorem Fits.of_function {l : Label} {n p b : Tree} (hm : l.chainStart = false)
    (hk : l.kind = .function) (hn : n.kind? = some .name) (hp : p.kind? = some .paramList)
    (hb : b.kind? = some .block) : Fits l [n, p, b] := by
  refine ⟨fun e => ?_, fun e => ?_, fun e => ?_, fun _ e => ?_, fun k e => ?_,
    fun _ => ⟨n, p, b, rfl, hn, hp, hb⟩⟩
  · rw [hm] at e; cases e
  all_goals rw [hk] at e; cases e

theorem Fits.of_link {l : Label} {t : Tree} {ts : List Tree} (hk : l.kind.isLink = true)
    (hm : l.chainStart = true → l.kind.isChain = true)
    (h : l.kind.isChain = true → l.chainStart = false → t.isChain = true) : Fits l (t :: ts) := by
  refine ⟨hm, fun _ => List.cons_ne_nil _ _, fun hc hs u hu => ?_,
    fun _ e => absurd (Kind.barsSome_of_bars e) ?_, fun j e => ?_, fun e => ?_⟩
  · obtain rfl : t = u := by simpa using hu
    exact h hc hs
  · generalize l.kind = k at hk; revert hk; cases k <;> decide
  all_goals exfalso; generalize l.kind = k at hk e; cases k <;> cases e <;> cases hk

end Tree

/-! ## Trees of the grammar -/

/-- The kind of all trees of a part, where there is only one. -/
def Part.kind? : Part → Option Kind
  | script => some .script
  | block => some .block
  | function => some .function
  | parameters => some .paramList
  | name | unnamed | binding => some .name
  | entry => some .objectKey
  | _ => none

/-- No tree of the part is a link of a chain. -/
def Part.isBarred : Part → Bool
  | expression | chain => false
  | _ => true

namespace Rule

variable {part : Part} {l : Label} {parts : List Part}

theorem kind_eq (h : Rule part l parts) {k : Kind} (hk : part.kind? = some k) : l.kind = k := by
  cases h <;> first | exact Option.some.inj hk | cases hk

theorem isChain_eq_false (h : Rule part l parts) (hp : part.isBarred = true) :
    l.kind.isChain = false := by
  cases h with
  | inner h => rw [h.kind_eq rfl]; rfl
  | named h => rw [h.kind_eq rfl]; rfl
  | @declaration k n hk => revert hk; cases k <;> decide
  | target h hk =>
    rcases hk with hk | hk
    · rw [hk]; rfl
    · revert hk; cases l.kind <;> decide
  | _ => first | rfl | cases hp

end Rule

namespace Tree

variable {part : Part} {l : Label} {parts : List Part} {ts : List Tree} {t : Tree}

theorem Is.kind?_eq (h : Is part t) {k : Kind} (hk : part.kind? = some k) : t.kind? = some k := by
  cases h with
  | of rule => exact congrArg some (rule.kind_eq hk)

theorem Is.isChain_eq_false (h : Is part t) (hp : part.isBarred = true) : t.isChain = false := by
  cases h with
  | of rule => exact rule.isChain_eq_false hp

theorem Is.isChain_eq_true (h : Is .chain t) : t.isChain = true := by
  cases h with
  | of rule =>
    cases rule with
    | chain rule hk => exact hk

theorem Is.isAbsent_eq_false (h : Is part t) : t.isAbsent = false := by
  cases h
  rfl

theorem Is.target_kind (h : Is .target t) :
    t.kind? = some .name ∨ t.kind?.any Kind.isGet = true := by
  obtain ⟨rule, -, -⟩ := h
  cases rule with
  | target _ hk => exact hk.imp (congrArg some) id

theorem Is.receiver_chain {k : Kind} {mark : Bool} (h : Is (.receiver k mark) t)
    (hc : k.isChain = true) (hm : mark = false) :
    t.isChain = true := by
  rw [Part.receiver, hc, hm] at h
  exact h.isChain_eq_true

theorem Fits.of_receiver {k : Kind} {us : List Tree} (hk : l.kind.isLink = true) (hl : l.kind = k)
    (hm : l.chainStart = true → k.isChain = true) (ht : Is (.receiver k l.chainStart) t) :
    Fits l (t :: us) := by
  refine .of_link hk (fun h => by rw [hl]; exact hm h) fun hc hs => ?_
  rw [hl] at hc
  exact ht.receiver_chain hc hs

theorem Fits.of_functionRule {q : Part} (hl : l.bare = { kind := .function })
    (hq : q.kind? = some .name) (h : List.Forall₂ Is [q, .parameters, .block] ts) : Fits l ts := by
  obtain _ | ⟨hn, _ | ⟨hp, _ | ⟨hb, _ | _⟩⟩⟩ := h
  exact .of_function (congrArg Label.chainStart hl) (congrArg Label.kind hl) (hn.kind?_eq hq)
    (hp.kind?_eq rfl)
    (hb.kind?_eq rfl)

/-- What a node asks of its children its productions grant. -/
theorem fits_of_rule (rule : Rule part l.bare parts) (h : List.Forall₂ Is parts ts) :
    Fits l ts := by
  generalize hb : l.bare = m at rule
  -- what is asked depends on the kind and the mark alone
  have hm : l.chainStart = m.chainStart := by rw [← hb]; rfl
  have hk : l.kind = m.kind := by rw [← hb]; rfl
  induction rule with
  | inner _ ih | named _ ih | «variable» _ ih | closure _ ih | target _ _ ih | chain _ _ ih =>
      exact ih h hb hm hk
  | script n | block n =>
    refine .of_owner hm (by rw [hk]; rfl) fun t ht => ?_
    exact ((forall₂_replicate.mp h).2 t ht).isChain_eq_false rfl
  | parameters n | object n =>
    exact .of_holds hm (by rw [hk]; rfl) fun t ht => ((forall₂_replicate.mp h).2 t ht).kind?_eq rfl
  | @declaration k n hd =>
    refine .of_holds hm (k := .name) ?_ fun t ht => ((forall₂_replicate.mp h).2 t ht).kind?_eq rfl
    rw [hk]
    revert hd
    cases k <;> decide
  | function => exact .of_functionRule hb rfl h
  | anonymous => exact .of_functionRule hb rfl h
  | chooses n one =>
    refine .of_bars hm (by rw [hk]; rfl) fun i hi t ht => ?_
    rw [hk] at hi
    obtain _ | ⟨-, h⟩ := h
    cases i with
    | zero => cases hi
    | succ i => exact ((forall₂_replicate.mp h).2 t (List.mem_of_getElem? ht)).isChain_eq_false rfl
  | assign =>
    obtain _ | ⟨ht, _ | ⟨_, _ | _⟩⟩ := h
    refine .of_bars hm (by rw [hk]; rfl) fun i hi u hu => ?_
    rw [hk] at hi
    obtain rfl : i = 0 := by simpa [Kind.bars] using hi
    obtain rfl := Option.some.inj hu
    exact ht.isChain_eq_false rfl
  | property hl hmark | element hl hmark | call _ hl hmark =>
    obtain _ | ⟨ht, -⟩ := h
    obtain rfl : l.chainStart = _ := hm
    refine .of_receiver ?_ hk hmark ht
    rw [hk]
    rcases hl with rfl | rfl <;> rfl
  | @constant k hc | @unary k hc | @binary k hc =>
    refine .of_undemanding ?_ _
    revert hc
    rw [undemanding, hm, hk]
    cases k <;> decide
  | _ => exact .of_undemanding (by rw [undemanding, hm, hk]; rfl) _

theorem Is.sound (h : Is part t) : Sound t := by
  induction h using Is.induct with
  | of rule children ih =>
    refine .of (fits_of_rule rule children) ?_
    intro t ht
    obtain ⟨q, -, -, ht⟩ := exists_part ih ht
    exact ht

end Tree

end ChainLowering
