import ChainLowering.Proofs.Scanning
import ChainLowering.Source.Reader

/-!
# Every reader ends

A reader never gives up a token that it has taken, and never takes the end of
input. Each round of a loop but the last takes a token, and each level of
nesting is counted before it is entered, so no recursion meets its bound. The
errors that stop a reader name a place where a token begins.
-/

namespace ChainLowering

namespace Reader

variable {σ : Type}

/-! ## How a reader moves -/

/-- Stands among tokens up to the end of input, with `k` levels of nesting to go. -/
structure Stands (P : Nat → Prop) (k : Nat) (r : Reader σ) : Prop where
  closes : Lexer.Closes P r.tokens
  depth : r.depth ≤ maxParseDepth
  room : maxParseDepth < r.depth + k
  peak : r.peak ≤ maxParseDepth + 1

/-- What may become of `r` while it is read from. -/
structure After (r r' : Reader σ) : Prop where
  tokens : r'.tokens <:+ r.tokens
  some : r'.tokens ≠ []
  depth : r'.depth = r.depth
  peak : r'.peak ≤ maxParseDepth + 1

section
variable {α β : Type} {P : Nat → Prop} {k : Nat} {c d : α → Prop} {x : Read σ α} {f : α → Read σ β}
    {r r' r'' : Reader σ} {t : Tok}

theorem Stands.refl (h : Stands P k r) : After r r :=
  ⟨List.suffix_rfl, h.closes.ne_nil, rfl, h.peak⟩

theorem Stands.after (h : Stands P k r) (ha : After r r') : Stands P k r' where
  closes := by
    obtain ⟨us, hus⟩ := ha.tokens
    obtain ⟨t, ht, heof⟩ := h.closes.last
    refine ⟨⟨t, ?_, heof⟩, fun u hu => h.closes.starts u (ha.tokens.subset hu)⟩
    rwa [← hus, List.getLast?_append_of_ne_nil _ ha.some] at ht
  depth := ha.depth ▸ h.depth
  room := ha.depth ▸ h.room
  peak := ha.peak

theorem After.trans (h : After r r') (h' : After r' r'') : After r r'' :=
  ⟨h'.tokens.trans h.tokens, h'.some, h'.depth.trans h.depth, h'.peak⟩

/-- How a reader may end: with `Q`, or with an error at a place where `P` holds. -/
def Ends (P : Nat → Prop) (Q : α → Reader σ → Prop) : Except (Halt ReadError) α × Reader σ → Prop
  | (.ok v, r) => Q v r
  | (.error (.error e), r) => P e.pos ∧ r.peak ≤ maxParseDepth + 1
  | (.error (.fault _), _) => False

theorem Ends.mono {Q Q' : α → Reader σ → Prop} {e : Except (Halt ReadError) α × Reader σ}
    (h : Ends P Q e) (hQ : ∀ v r, Q v r → Q' v r) : Ends P Q' e := by
  rcases e with ⟨(e | f) | v, r⟩
  · exact h
  · exact h
  · exact hQ v r h

theorem Ends.bind {Q : β → Reader σ → Prop}
    (h : Ends P (fun v r' => Ends P Q ((f v).run r')) (x.run r)) :
    Ends P Q ((x >>= f).run r) := by
  rw [ExceptT.run_bind]
  change Ends P Q (StateT.bind x.run _ r)
  simp only [StateT.bind]
  rcases hx : x.run r with ⟨(e | f) | v, r'⟩ <;> rw [hx] at h <;> exact h

/-- Ends, and has taken a token if `c` holds of the value. The next token is `t`. -/
def MovesAt (P : Nat → Prop) (k : Nat) (t : Tok) (c : α → Prop) (x : Read σ α) : Prop :=
  ∀ r, Stands P k r → r.current.tok = t →
    Ends P (fun v r' => After r r' ∧ (c v → r'.tokens.length < r.tokens.length)) (x.run r)

def Moves (P : Nat → Prop) (k : Nat) (c : α → Prop) (x : Read σ α) : Prop := ∀ t, MovesAt P k t c x

abbrev Total (P : Nat → Prop) (k : Nat) (x : Read σ α) : Prop := Moves P k (fun _ => False) x

/-- Ends, and takes a token unless there is an error. -/
abbrev Takes (P : Nat → Prop) (k : Nat) (x : Read σ α) : Prop := Moves P k (fun _ => True) x

theorem MovesAt.mono (h : MovesAt P k t c x) (hd : ∀ v, d v → c v) : MovesAt P k t d x :=
  fun r hr ht => (h r hr ht).mono fun v _ hv => ⟨hv.1, fun hdv => hv.2 (hd v hdv)⟩

theorem Moves.mono (h : Moves P k c x) (hd : ∀ v, d v → c v) : Moves P k d x :=
  fun t => (h t).mono hd

theorem Moves.total (h : Moves P k c x) : Total P k x := h.mono fun _ => False.elim

theorem MovesAt.bind {e : β → Prop} (hx : MovesAt P k t c x)
    (hf : ∀ v, Moves P k (fun w => e w ∧ ¬ c v) (f v)) :
    MovesAt P k t e (x >>= f) := by
  refine fun r hr ht => Ends.bind ((hx r hr ht).mono fun v r' ⟨ha, hc⟩ => ?_)
  refine (hf v _ r' (hr.after ha) rfl).mono fun w r'' ⟨ha', hw⟩ => ⟨ha.trans ha', fun he => ?_⟩
  by_cases hv : c v
  · exact Nat.lt_of_le_of_lt ha'.tokens.length_le (hc hv)
  · exact Nat.lt_of_lt_of_le (hw ⟨he, hv⟩) ha.tokens.length_le

theorem Moves.bind {e : β → Prop} (hx : Moves P k c x)
    (hf : ∀ v, Moves P k (fun w => e w ∧ ¬ c v) (f v)) :
    Moves P k e (x >>= f) := fun t => (hx t).bind hf

theorem Moves.then {e : β → Prop} (hx : Total P k x) (hf : ∀ v, Moves P k e (f v)) :
    Moves P k e (x >>= f) :=
  hx.bind fun v => (hf v).mono fun _ h => h.1

theorem Moves.first {e : β → Prop} (hx : Takes P k x) (hf : ∀ v, Total P k (f v)) :
    Moves P k e (x >>= f) :=
  hx.bind fun v => (hf v).mono fun _ h => h.2 trivial

theorem moves_pure {v : α} (hv : ¬ c v) : Moves P k c (pure v : Read σ α) :=
  fun _ _ hr _ => ⟨hr.refl, fun h => absurd h hv⟩

theorem total_pure (v : α) : Total P k (pure v : Read σ α) := moves_pure id

theorem moves_ite {p : Prop} [Decidable p] {y : Read σ α} (hx : Moves P k c x)
    (hy : Moves P k c y) :
    Moves P k c (if p then x else y) := by
  split
  · exact hx
  · exact hy

theorem Stands.current (h : Stands P k r) : P r.current.start := by
  refine h.closes.starts _ ?_
  rw [Reader.current, List.headD_eq_head?_getD, List.head?_eq_some_head h.closes.ne_nil]
  exact List.head_mem _

theorem moves_get {f : Reader σ → Read σ β} {c : β → Prop} (h : ∀ r, Moves P k c (f r)) :
    Moves P k c (get >>= f) :=
  fun t r hr ht => h r t r hr ht

theorem moves_peek {f : Token → Read σ β} {c : β → Prop}
    (h : ∀ t : Token, P t.start → MovesAt P k t.tok c (f t)) :
    Moves P k c (peek >>= f) := by
  exact fun t r hr ht => h r.current hr.current r hr rfl

theorem moves_position {f : Nat → Read σ β} {c : β → Prop} (h : ∀ n, P n → Moves P k c (f n)) :
    Moves P k c (position >>= f) := by
  have hrun : position >>= f = peek >>= fun t => f t.start := by
    rw [position, bind_assoc]
    exact congrArg (peek >>= ·) (funext fun t => pure_bind _ _)
  rw [hrun]
  exact moves_peek fun t ht => h t.start ht t.tok

theorem total_modify {g : Reader σ → Reader σ} (ht : ∀ r, (g r).tokens = r.tokens)
    (hd : ∀ r, (g r).depth = r.depth) (hp : ∀ r, (g r).peak = r.peak) :
    Total P k (modify g : Read σ Unit) := by
  refine fun _ r hr _ => ⟨⟨?_, ?_, hd r, ?_⟩, False.elim⟩
  · exact ⟨[], ht r⟩
  · rw [ht]
    exact hr.closes.ne_nil
  · rw [hp]
    exact hr.peak

theorem moves_fail {e : ReadError} (h : P e.pos) : Moves P k c (fail e : Read σ α) :=
  fun _ _ hr _ => ⟨h, hr.peak⟩

theorem moves_unexpected (e : Expected) : Moves P k c (unexpected e : Read σ α) :=
  moves_peek fun _ ht => moves_fail ht _

theorem unexpected_bind (e : Expected) (f : α → Read σ β) : unexpected e >>= f = unexpected e := by
  rw [unexpected, bind_assoc]
  rfl

/-! ## Tokens -/

theorem total_peek : Total P k (peek : Read σ Token) := moves_get fun _ => total_pure _

theorem takes_advance (ht : t ≠ .eof) : MovesAt P k t (fun _ => True) (advance : Read σ Token) := by
  intro r hr hcur
  obtain ⟨u, us, hus⟩ := List.exists_cons_of_ne_nil hr.closes.ne_nil
  have hu : r.current = u := by rw [current, hus]; rfl
  obtain ⟨e, he, heof⟩ := hr.closes.last
  have hne : us ≠ [] := by
    rintro rfl
    rw [hus, List.getLast?_singleton, Option.mem_some_iff] at he
    rw [← hcur, hu, he] at ht
    exact ht heof
  change Ends P _ ((if r.current.tok ≠ .eof then (do
    modify fun r' => { r' with tokens := r'.tokens.tail, lastStop := r.current.stop }
    return r.current) else return r.current : Read σ Token).run r)
  rw [if_pos (hcur ▸ ht)]
  refine ⟨⟨List.tail_suffix _, ?_, rfl, hr.peak⟩, fun _ => ?_⟩
  · change r.tokens.tail ≠ []
    rwa [hus]
  · change r.tokens.tail.length < r.tokens.length
    rw [hus]
    exact Nat.lt_succ_self _

theorem total_advance : Total P k (advance : Read σ Token) := by
  intro t
  by_cases ht : t = .eof
  · subst ht
    intro r hr hcur
    change Ends P _ ((if r.current.tok ≠ .eof then (do
      modify fun r' => { r' with tokens := r'.tokens.tail, lastStop := r.current.stop }
      return r.current) else return r.current : Read σ Token).run r)
    rw [if_neg (not_not.mpr hcur)]
    exact ⟨hr.refl, False.elim⟩
  · exact (takes_advance ht).mono fun _ => False.elim

theorem moves_advance {f : Token → Read σ β} {c : β → Prop} (ht : t ≠ .eof)
    (hf : ∀ u, Total P k (f u)) :
    MovesAt P k t c (advance >>= f) :=
      (takes_advance ht).bind fun u => (hf u).mono fun _ h => h.2 trivial

theorem total_atWord (w : String) : Total P k (atWord w : Read σ Bool) :=
  total_peek.then fun _ => total_pure _

theorem total_atEnd : Total P k (atEnd : Read σ Bool) := total_peek.then fun _ => total_pure _

theorem moves_at? {p : Punct} {f : Bool → Read σ β} {c : β → Prop} (h : ∀ b, Moves P k c (f b)) :
    Moves P k c (at? p >>= f) :=
  .then (total_peek.then fun _ => total_pure _) h

theorem takes_eat (p : Punct) : Moves P k (fun b => b = true) (eat p : Read σ Bool) := by
  have hrun : (eat p : Read σ Bool) = peek >>= fun t => if decide (t.tok = .punct p) = true then (do
      let _ ← advance
      return true) else return false := by
    rw [eat, at?, bind_assoc]
    exact congrArg (peek >>= ·) (funext fun t => pure_bind _ _)
  rw [hrun]
  refine moves_peek fun t _ => ?_
  split
  · rename_i h
    rw [of_decide_eq_true h]
    exact moves_advance Tok.noConfusion fun _ => total_pure _
  · exact moves_pure Bool.noConfusion _

theorem moves_eat {p : Punct} {x y : Read σ β} {c : β → Prop} (hx : Total P k x)
    (hy : Moves P k c y) :
    Moves P k c (eat p >>= fun b => if b = true then x else y) := by
  refine (takes_eat p).bind fun b => ?_
  cases b with
  | true => exact hx.mono fun _ h => h.2 rfl
  | false => exact hy.mono fun _ h => h.1

theorem takes_expect (p : Punct) : Takes P k (expect p : Read σ Unit) := by
  refine (takes_eat p).bind fun b => ?_
  cases b with
  | true => exact moves_pure fun h => h.2 rfl
  | false => exact moves_unexpected _

theorem moves_word {w : String} {f : Token → Read σ β} {y : Read σ β} {c : β → Prop}
    (hx : ∀ t, Total P k (f t)) (hy : Moves P k c y) :
    Moves P k c (atWord w >>= fun b => if b = true then advance >>= f else y) := by
  have hrun : (atWord w >>= fun b => if b = true then advance >>= f else y) =
      peek >>= fun t => if decide (t.tok = .ident w) = true then advance >>= f else y := by
    rw [atWord, bind_assoc]
    exact congrArg (peek >>= ·) (funext fun t => pure_bind _ _)
  rw [hrun]
  refine moves_peek fun t _ => ?_
  split
  · rename_i h
    rw [of_decide_eq_true h]
    exact moves_advance Tok.noConfusion hx
  · exact hy _

theorem takes_identifier : Takes P k (identifier : Read σ String) := by
  refine moves_peek fun t _ => ?_
  cases t.tok with
  | ident s =>
    have hrest : MovesAt P k (.ident s) (fun _ => True)
        (do let _ ← advance; return s : Read σ String) :=
      moves_advance Tok.noConfusion fun _ => total_pure _
    dsimp only
    split
    · rw [unexpected_bind]
      exact moves_unexpected _ _
    · exact hrest
  | _ => exact moves_unexpected _ _

theorem takes_propertyName : Takes P k (propertyName : Read σ String) := by
  refine moves_peek fun t _ => ?_
  cases t.tok with
  | ident s => exact moves_advance Tok.noConfusion fun _ => total_pure _
  | _ => exact moves_unexpected _ _

/-! ## Nodes -/

section
variable [NodeStack σ]

theorem total_push (l : Label) (n : Nat) : Total P k (push l n : Read σ Unit) :=
  total_modify (fun _ => rfl) (fun _ => rfl) fun _ => rfl

theorem total_finish (l : Label) (start n : Nat) : Total P k (finish l start n : Read σ Unit) :=
  moves_get fun _ => total_push _ _

theorem total_counted {x : Read σ Unit} (hx : Total P k x) : Total P k (counted x) :=
  moves_get fun _ => hx.then fun _ => moves_get fun _ => total_pure _

theorem takes_nameNode : Takes P k (nameNode : Read σ Unit) :=
  moves_position fun _ _ => takes_identifier.first fun _ => total_finish _ _ _

end

/-! ## Repetition and nesting -/

/-- There are no more rounds than tokens when each round that goes on takes one. -/
theorem total_iterateTo {γ : Type} {step : γ → Read σ (Option γ)}
    (hstep : ∀ y, Moves P k (fun o => o.isSome = true) (step y)) (ts : List Token) (y : γ)
    (hr : Stands P k r) (hts : r.tokens.length ≤ ts.length) :
    Ends P (fun _ => After r) ((iterateTo step ts y).run r) := by
  induction ts generalizing y r with
  | nil => exact absurd (List.length_eq_zero_iff.mp (Nat.le_zero.mp hts)) hr.closes.ne_nil
  | cons u us ih =>
    refine Ends.bind ((hstep y _ r hr rfl).mono fun o r' ⟨ha, ho⟩ => ?_)
    cases o with
    | none => exact ha
    | some z =>
        exact (ih z (hr.after ha)
          (by have := ho rfl; simp only [List.length_cons] at hts; omega)).mono fun _ _ => ha.trans

theorem total_iterate {γ : Type} {step : γ → Read σ (Option γ)}
    (hstep : ∀ y, Moves P k (fun o => o.isSome = true) (step y)) (y : γ) :
    Total P k (iterate step y) :=
  fun _ r hr _ => (total_iterateTo hstep r.tokens y hr le_rfl).mono fun _ _ h => ⟨h, False.elim⟩

theorem total_repeatedly {step : Read σ Bool} (hstep : Moves P k (fun b => b = true) step) :
    Total P k (repeatedly step) := by
  refine total_iterate (fun _ => hstep.bind fun b => ?_) ()
  cases b with
  | true => exact moves_pure fun h => h.2 rfl
  | false => exact moves_pure fun h => nomatch h.1

theorem takes_separated {close : Punct} {item : Read σ Unit} (hx : Takes P k item) :
    Takes P k (separated close item) := by
  refine .then (total_repeatedly (moves_at? fun b => moves_ite (moves_pure Bool.noConfusion) ?_))
    fun _ => takes_expect close
  exact hx.first fun _ => (takes_eat .comma).total

theorem moves_deeper {x : Read σ Unit} {c : Unit → Prop} (hx : Moves P k c x) :
    Moves P (k + 1) c (deeper x) := by
  intro t r hr ht
  have hroom := hr.room
  have hentered : r.enter.peak ≤ maxParseDepth + 1 := max_le hr.peak (Nat.succ_le_succ hr.depth)
  by_cases hdeep : maxParseDepth < r.depth + 1
  · rw [run_deeper_full hdeep]
    exact ⟨hr.current, hentered⟩
  · rw [run_deeper_ok (Nat.le_of_not_lt hdeep)]
    have hstands : Stands P k r.enter :=
      ⟨hr.closes, Nat.le_of_not_lt hdeep, by change _ < r.depth + 1 + k; omega, hentered⟩
    have hends := hx _ r.enter hstands rfl
    rcases hrun : x.run r.enter with ⟨(e | f) | v, r'⟩ <;> rw [hrun] at hends
    · exact hends
    · exact hends
    · obtain ⟨ha, hv⟩ := hends
      exact ⟨⟨ha.tokens, ha.some, by change r'.depth - 1 = _; rw [ha.depth]; rfl, ha.peak⟩, hv⟩

theorem moves_exhausted : Moves P 0 c x :=
  fun _ _ hr _ => absurd hr.depth (Nat.not_le_of_lt hr.room)

end

/-! ## Statements -/

/-- Readers of deeper levels that end. -/
structure Nested.Moving (P : Nat → Prop) (k : Nat) (p : Nested σ) : Prop where
  statement : Takes P k p.statement
  assignment : Takes P k p.assignment
  operand : Takes P k p.operand

section
variable [NodeStack σ] {P : Nat → Prop} {k : Nat} {p : Nested σ} (hp : p.Moving P k)
include hp

theorem takes_block : Takes P k (block p) := by
  have hrest : Moves P k (fun b => b = true) (do p.statement; return true) :=
    hp.statement.first fun _ => total_pure _
  refine moves_position fun start _ => (takes_expect _).first fun _ => ?_
  refine .then (total_counted (total_repeatedly ?_)) fun _ => total_advance.then fun _ =>
    total_finish _ _ _
  refine moves_at? fun _ =>
    moves_ite (moves_pure Bool.noConfusion) (total_atEnd.then fun _ => moves_ite ?_ hrest)
  rw [unexpected_bind]
  exact moves_unexpected _

theorem takes_branch : Takes P k (branch p) :=
  moves_at? fun _ =>
    moves_ite (takes_block hp) (moves_position fun _ _ => hp.statement.first fun _ =>
      total_finish _ _ _)

theorem total_declaration (kind : Kind) (start : Nat) : Total P k (declaration p kind start) := by
  refine .then (total_counted (total_repeatedly ?_)) fun _ => (takes_eat _).total.then fun _ =>
    total_finish _ _ _
  refine moves_position fun _ _ => takes_identifier.first fun _ => ?_
  refine .then (total_counted (moves_eat hp.assignment.total (total_pure _))) fun _ =>
    (total_finish _ _ _).then fun _ => ?_
  exact (takes_eat _).total

theorem takes_function (must : Bool) : Takes P k (function p must) := by
  have hrest (start : Nat) : Takes P k (do
      let paramsStart ← position
      expect .leftParen
      let n ← counted (separated .rightParen nameNode)
      finish { kind := .paramList } paramsStart n
      block p
      finish { kind := .function } start 3) := by
    refine moves_position fun _ _ => (takes_expect _).first fun _ => ?_
    refine .then (total_counted (takes_separated takes_nameNode).total) fun _ =>
      (total_finish _ _ _).then fun _ => ?_
    exact (takes_block hp).first fun _ => total_finish _ _ _
  refine moves_position fun start _ => total_advance.then fun _ => moves_at? fun _ =>
    moves_ite ?_ ?_
  · exact takes_nameNode.total.then fun _ => hrest start
  · exact (total_push _ _).then fun _ => hrest start

theorem takes_expression : Takes P k (expression p) := by
  have hrest (start : Nat) : Moves P k (fun b => b = true) (do
      p.assignment
      finish { kind := .comma } start 2
      return true) := hp.assignment.first fun _ => (total_finish _ _ _).then fun _ => total_pure _
  refine moves_position fun start _ => hp.assignment.first fun _ => total_repeatedly ?_
  exact (takes_eat _).total.then fun _ => moves_ite (moves_pure Bool.noConfusion) (hrest start)

theorem total_returnStatement (start : Nat) : Total P k (returnStatement p start) := by
  refine .then (total_counted ?_) fun _ => (takes_eat _).total.then fun _ => total_finish _ _ _
  exact moves_at? fun _ => moves_at? fun _ => total_atEnd.then fun _ =>
    moves_ite (takes_expression hp).total (total_pure _)

theorem total_ifStatement (start : Nat) : Total P k (ifStatement p start) := by
  refine (takes_expect _).total.then fun _ => .then (total_counted ?_) fun _ => total_finish _ _ _
  refine (takes_expression hp).total.then fun _ => (takes_expect _).total.then fun _ =>
    (takes_branch hp).total.then fun _ => ?_
  exact moves_word (fun _ => (takes_branch hp).total) (total_pure _)

theorem takes_statement : Takes P k (statement p) := by
  refine moves_position fun start _ => moves_at? fun _ =>
    moves_ite (takes_block hp) (moves_eat (total_finish _ _ _) ?_)
  refine moves_peek fun t _ => ?_
  cases hk : declarationKind? t.tok with
  | some kind =>
    refine moves_advance (fun ht => ?_) fun _ => total_declaration hp kind start
    rw [ht] at hk
    cases hk
  | none =>
    have hword : Takes P k (do
        if ← atWord "function" then function p true
        else if ← atWord "return" then
          let _ ← advance
          returnStatement p start
        else if ← atWord "if" then
          let _ ← advance
          ifStatement p start
        else
          expression p
          let _ ← eat .semicolon
          finish { kind := .exprStmt } start 1) := by
      refine (total_atWord _).then fun _ => moves_ite (takes_function hp true) ?_
      refine moves_word (fun _ => total_returnStatement hp start)
        (moves_word (fun _ => total_ifStatement hp start) ?_)
      exact (takes_expression hp).first fun _ => (takes_eat _).total.then fun _ =>
        total_finish _ _ _
    exact hword _

/-! ## Expressions -/

theorem takes_objectLiteral : Takes P k (objectLiteral p) := by
  have hrest (keyStart : Nat) (key : String) : Takes P k (do
      expect .colon
      p.assignment
      finish { kind := .objectKey, text := some key } keyStart 1) :=
    (takes_expect _).first fun _ => hp.assignment.total.then fun _ => total_finish _ _ _
  refine moves_position fun start _ => (takes_expect _).first fun _ => ?_
  refine .then (total_counted (takes_separated ?_).total) fun _ => total_finish _ _ _
  refine moves_position fun keyStart _ => moves_peek fun t _ => ?_
  cases t.tok with
  | string w => exact (total_advance.then fun _ => (total_pure w).then (hrest keyStart)) _
  | _ => exact (takes_propertyName.total.then (hrest keyStart)) _

theorem takes_primary : Takes P k (primary p) := by
  refine moves_position fun start _ => moves_peek fun t _ => ?_
  split
  · exact (total_advance.then fun _ => (takes_expression hp).first fun _ => (takes_expect _).total)
      _
  · exact takes_objectLiteral hp _
  · rename_i h
    rw [h]
    exact moves_advance Tok.noConfusion fun _ => total_finish _ _ _
  · rename_i h
    rw [h]
    exact moves_advance Tok.noConfusion fun _ => total_finish _ _ _
  · rename_i h
    rw [h]
    split
    · exact moves_advance Tok.noConfusion fun _ => total_finish _ _ _
    · exact moves_ite (takes_function hp false) takes_nameNode _
  · exact moves_unexpected _ _

theorem takes_key : Takes P k (key p) := (takes_expression hp).first fun _ => (takes_expect _).total

theorem moves_link (start : Nat) (inChain : Bool) :
    Moves P k (fun o => o.isSome = true) (link p start inChain) := by
  have hnode {o : Option Bool} (l : Label) (n : Nat) :
      Total P k (do finish l start n; return o : Read σ (Option Bool)) :=
    (total_finish _ _ _).then fun _ => total_pure _
  have hargs {o : Option Bool} (l : Label) : Total P k (do
      let n ← counted (separated .rightParen p.assignment)
      finish l start (n + 1)
      return o) := .then (total_counted (takes_separated hp.assignment).total) fun _ => hnode l _
  refine moves_eat (moves_eat (hargs _) (moves_eat ?_ ?_))
    (moves_eat ?_ (moves_eat ?_ (moves_eat (hargs _) ?_)))
  · exact (takes_key hp).total.then fun _ => hnode _ _
  · exact takes_propertyName.total.then fun _ => hnode _ _
  · exact takes_propertyName.total.then fun _ => hnode _ _
  · exact (takes_key hp).total.then fun _ => hnode _ _
  · exact moves_pure Bool.noConfusion

theorem takes_linked : Takes P k (linked p) :=
  moves_position fun start _ => (takes_primary hp).first fun _ =>
    total_iterate (moves_link hp start) false

theorem takes_unary : Takes P k (unary p) := by
  have hoperand (l : Label) (start : Nat) : Total P k (do p.operand; finish l start 1) :=
    hp.operand.total.then fun _ => total_finish _ _ _
  exact moves_position fun start _ =>
    moves_eat (hoperand _ start) (moves_word (fun _ => hoperand _ start) (takes_linked hp))

omit hp in
theorem takes_leftNested {operators : List (Punct × Kind)} {operand : Read σ Unit}
    (hx : Takes P k operand) :
    Takes P k (leftNested operators operand) := by
  refine moves_position fun start _ => hx.first fun _ => total_repeatedly (moves_peek fun t _ => ?_)
  cases hfound : operators.find? (fun o => t.tok = .punct o.1) with
  | none => exact moves_pure Bool.noConfusion _
  | some o =>
    have ht := List.find?_some hfound
    rw [decide_eq_true_eq] at ht
    rw [ht]
    exact moves_advance Tok.noConfusion fun _ => hx.total.then fun _ =>
      (total_finish _ _ _).then fun _ => total_pure _

theorem takes_disjunction : Takes P k (disjunction p) :=
  takes_leftNested (takes_leftNested (takes_leftNested (takes_unary hp)))

theorem takes_conditional : Takes P k (conditional p) := by
  refine moves_position fun start _ => (takes_disjunction hp).first fun _ =>
    moves_eat ?_ (total_pure _)
  refine hp.assignment.total.then fun _ => (takes_expect _).total.then fun _ =>
    hp.assignment.total.then fun _ => ?_
  exact total_finish _ _ _

theorem takes_assignment : Takes P k (assignment p) := by
  have hrest (start : Nat) : Total P k (do
      let _ ← advance
      p.assignment
      finish { kind := .assign } start 2) := total_advance.then fun _ =>
        hp.assignment.total.then fun _ => total_finish _ _ _
  refine moves_position fun start hstart => (takes_conditional hp).first fun _ => moves_at? fun _ =>
    moves_ite ?_ (total_pure _)
  refine moves_get fun r => moves_ite ?_ (hrest start)
  exact moves_fail hstart

end

/-! ## All levels -/

theorem stands_tokens {P : Nat → Prop} {ts : List Token} (h : Lexer.Closes P ts) (s : σ) :
    Stands P (maxParseDepth + 1) { tokens := ts, made := s } :=
  ⟨h, Nat.zero_le _, by change _ < 0 + _; omega, Nat.zero_le _⟩

variable [NodeStack σ]

theorem moving_nested {P : Nat → Prop} (k : Nat) : (nested k : Nested σ).Moving P k := by
  induction k with
  | zero => exact ⟨moves_exhausted, moves_exhausted, moves_exhausted⟩
  | succ k ih =>
      exact ⟨moves_deeper (takes_statement ih), moves_deeper (takes_assignment ih),
        moves_deeper (takes_unary ih)⟩

theorem total_script {P : Nat → Prop} : Total P (maxParseDepth + 1) (script : Read σ Unit) := by
  refine .then (total_counted (total_repeatedly ?_)) fun _ => total_finish _ _ _
  refine total_atEnd.then fun _ => moves_ite (moves_pure Bool.noConfusion) ?_
  exact (moving_nested _).statement.first fun _ => total_pure _

end Reader

end ChainLowering
