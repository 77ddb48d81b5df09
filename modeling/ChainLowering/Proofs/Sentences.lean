import ChainLowering.Proofs.Phrases

/-!
# Rows of tokens that are statements

A sentence is a row of tokens that is read as a statement, wherever no `else`
follows. Blocks and functions are read whatever follows.
-/

namespace ChainLowering

namespace Reader

variable {k : Precedence} {chain ambiguous : Bool} {ts us : List Tok} {t u : Tree} {d : Nat}
    {rest : List Tok}
  {made : List Tree} {ι : Type} {toks : ι → List Tok} {tree : ι → Tree} {is : List ι}

def anyTok : Tok → Bool := fun _ => true

/-- A statement begins with none of the tokens that end a row of statements. -/
structure Sentence (ts : List Tok) (u : Tree) : Prop where
  opens : ∃ t us, ts = t :: us ∧ t ≠ .punct .rightBrace ∧ t ≠ .eof ∧ t ≠ .ident "else"
  regains : Regains statement (· ≠ .ident "else") ts u

/-! ## Rows of statements -/

def blockStep (p : NestedTrees) : TreeRead Bool := do
  if ← at? .rightBrace then return false
  if ← atEnd then unexpected .closingBrace
  p.statement
  return true

theorem block_eq (p : NestedTrees) : block p = (do
    let start ← position
    expect .leftBrace
    let n ← counted (repeatedly (blockStep p))
    let _ ← advance
    finish { kind := .block } start n) := rfl

def scriptStep : TreeRead Bool := do
  if ← atEnd then return false
  outermost.statement
  return true

theorem script_eq : script = (do
    let n ← counted (repeatedly scriptStep)
    finish { kind := .script } 0 n) := rfl

theorem headD_flatMap_ne_else (h : ∀ i ∈ is, Sentence (toks i) (tree i)) (rest : List Tok)
    (hrest : rest.headD .eof ≠ .ident "else") :
    (is.flatMap toks ++ rest).headD .eof ≠ .ident "else" := by
  cases is with
  | nil => exact hrest
  | cons i is =>
    obtain ⟨t, us, e, -, -, ht⟩ := (h i List.mem_cons_self).opens
    rw [List.flatMap_cons, e]
    exact ht

theorem repeats_block (h : ∀ i ∈ is, Sentence (toks i) (tree i)) (hd : d ≤ maxParseDepth) :
    Repeats (blockStep (levels d)) ⟨is.flatMap toks ++ .punct .rightBrace :: rest, d, made⟩
      fun _ v => v = ⟨.punct .rightBrace :: rest, d, (is.map tree).reverse ++ made⟩ := by
  induction is generalizing made with
  | nil =>
    refine repeats_last (.bind (goes_at? _ ?_))
    rw [View.next, decide_eq_true (by rfl)]
    exact goes_pure ⟨rfl, rfl⟩
  | cons i is ih =>
    obtain ⟨hi, his⟩ := List.forall_mem_cons.mp h
    obtain ⟨t, us, e, hb, he, -⟩ := hi.opens
    have hnext := headD_flatMap_ne_else his (.punct .rightBrace :: rest) Tok.noConfusion
    have hhead : (toks i ++ (is.flatMap toks ++ .punct .rightBrace :: rest)).headD .eof = t := by
      rw [e]; rfl
    have hlen : 0 < (toks i).length := by rw [e]; exact Nat.succ_pos _
    rw [List.flatMap_cons, List.append_assoc]
    refine repeats_next (.bind (goes_at? _ ?_))
    rw [View.next, hhead, decide_eq_false hb]
    refine .bind (goes_atEnd ?_)
    rw [View.next, hhead, decide_eq_false he]
    refine .bind
      (hi.regains.statement.goes hd (decide_eq_true hnext) (goes_pure ⟨rfl, by simp; omega, ?_⟩))
    have := @ih (tree i :: made) his
    simpa using this

theorem regains_block (h : ∀ i ∈ is, Sentence (toks i) (tree i)) :
    Regains block anyTok (.punct .leftBrace :: (is.flatMap toks ++ [.punct .rightBrace]))
      (.of { kind := .block } (is.map tree)) := by
  intro d hd rest made _
  simp only [List.append_assoc, List.cons_append, List.nil_append]
  rw [block_eq]
  refine .bind (goes_position fun start => .bind (goes_expect (.bind (goes_counted ?_))))
  refine (goes_repeatedly (repeats_block h hd)).mono ?_
  rintro _ v rfl
  refine .bind (goes_advance Tok.noConfusion fun _ => goes_finish_row ?_ rfl)
  simp

theorem repeats_script (h : ∀ i ∈ is, Sentence (toks i) (tree i)) :
    Repeats scriptStep ⟨is.flatMap toks, 0, made⟩ fun _ v =>
      v = ⟨[], 0, (is.map tree).reverse ++ made⟩ := by
  induction is generalizing made with
  | nil => exact repeats_last (.bind (goes_atEnd (goes_pure ⟨rfl, rfl⟩)))
  | cons i is ih =>
    obtain ⟨hi, his⟩ := List.forall_mem_cons.mp h
    obtain ⟨t, us, e, -, he, -⟩ := hi.opens
    have hnext := headD_flatMap_ne_else his [] nofun
    rw [List.append_nil] at hnext
    have hhead : (toks i ++ is.flatMap toks).headD .eof = t := by rw [e]; rfl
    have hlen : 0 < (toks i).length := by rw [e]; exact Nat.succ_pos _
    rw [List.flatMap_cons]
    refine repeats_next (.bind (goes_atEnd ?_))
    rw [View.next, hhead, decide_eq_false he]
    refine .bind
      (hi.regains.statement.goes (Nat.zero_le _) (decide_eq_true hnext)
        (goes_pure ⟨rfl, by simp; omega, ?_⟩))
    have := @ih (tree i :: made) his
    simpa using this

theorem goes_script (h : ∀ i ∈ is, Sentence (toks i) (tree i)) :
    Goes script ⟨is.flatMap toks, 0, []⟩ fun _ v =>
      v = ⟨[], 0, [.of { kind := .script } (is.map tree)]⟩ := by
  rw [script_eq]
  refine .bind (goes_counted ((goes_repeatedly (repeats_script h)).mono ?_))
  rintro _ v rfl
  exact goes_finish_row (by simp) rfl

/-! ## Functions -/

def functionRest (p : NestedTrees) (start : Nat) : TreeRead Unit := do
  let paramsStart ← position
  expect .leftParen
  let n ← counted (separated .rightParen nameNode)
  finish { kind := .paramList } paramsStart n
  block p
  finish { kind := .function } start 3

def functionTree (name : String) (params : List String) (body : Tree) : Tree :=
  .of { kind := .function } [.of { kind := .name, text := some name } [],
    .of { kind := .paramList } (params.map fun w => .of { kind := .name, text := some w } []), body]

variable {params : List String} {name : String} {start : Nat}

def signature (params : List String) (ts : List Tok) : List Tok :=
  .punct .leftParen :: (commas (params.map fun w => [.ident w]) ++ .punct .rightParen :: ts)

theorem item_name {w : String} (hw : Lexer.isIdentifier w = true) :
    Item .rightParen (fun _ => nameNode) [.ident w] (.of { kind := .name, text := some w } []) :=
  ⟨⟨_, _, rfl, nofun⟩, fun _ _ _ _ _ => goes_nameNode hw rfl⟩

theorem goes_functionRest (hp : ∀ w ∈ params, Lexer.isIdentifier w = true)
    (hb : Regains block anyTok ts u) (hd : d ≤ maxParseDepth) :
    Goes (functionRest (levels d) start)
      ⟨signature params ts ++ rest, d, .of { kind := .name, text := some name } [] :: made⟩
      fun _ v => v = ⟨rest, d, functionTree name params u :: made⟩ := by
  have hclose : Punct.rightParen ≠ .comma := nofun
  have hitems : ∀ w ∈ params,
      Item .rightParen (fun _ => nameNode) [.ident w] (.of { kind := .name, text := some w } []) :=
    fun w hw => item_name (hp w hw)
  simp only [signature, List.cons_append, List.append_assoc]
  refine .bind (goes_position fun _ => .bind (goes_expect (.bind ?_)))
  exact goes_counted_separated hclose hitems hd
    (.bind (goes_finish_row (by simp) (.bind (hb.goes hd rfl (goes_finish rfl)))))

theorem regains_function (b : Bool) (hn : Lexer.isIdentifier name = true)
    (hp : ∀ w ∈ params, Lexer.isIdentifier w = true) (hb : Regains block anyTok ts u) :
    Regains (function · b) anyTok (.ident "function" :: .ident name :: signature params ts)
      (functionTree name params u) := by
  intro d hd rest made _
  rw [List.cons_append, List.cons_append]
  refine .bind
    (goes_position fun start => .bind (goes_advance Tok.noConfusion fun _ => .bind (goes_at? _ ?_)))
  rw [if_pos (by simp [View.next])]
  exact .bind (goes_nameNode hn (goes_functionRest hp hb hd))

theorem regains_anonymous (hp : ∀ w ∈ params, Lexer.isIdentifier w = true)
    (hb : Regains block anyTok ts u) :
    Regains (function · false) anyTok (.ident "function" :: signature params ts)
      (functionTree "" params u) := by
  intro d hd rest made _
  refine .bind
    (goes_position fun start => .bind (goes_advance Tok.noConfusion fun _ => .bind (goes_at? _ ?_)))
  exact .bind (goes_push (goes_functionRest hp hb hd))

theorem Regains.function (h : Regains (function · false) anyTok (.ident "function" :: ts) u) :
    Phrase .primary false true (.ident "function" :: ts) u := by
  refine Regains.phrase ?_ ⟨by decide, nofun, fun _ => ⟨nofun, by decide⟩⟩
  intro d hd rest made _
  refine .bind (goes_position fun start => .bind (goes_peek fun t ht => ?_))
  rw [ht]
  exact h hd rfl

/-! ## Statements -/

theorem sentence_block (h : Regains block anyTok (.punct .leftBrace :: ts) u) :
    Sentence (.punct .leftBrace :: ts) u := by
  refine ⟨⟨_, _, rfl, nofun, nofun, nofun⟩, fun d hd rest made _ => ?_⟩
  refine .bind (goes_position fun start => .bind (goes_at? _ ?_))
  exact h hd rfl

theorem sentence_empty : Sentence [.punct .semicolon] (.of { kind := .empty } []) := by
  refine ⟨⟨_, _, rfl, nofun, nofun, nofun⟩, fun d hd rest made _ => ?_⟩
  refine .bind (goes_position fun start => .bind (goes_at? _ (.bind (goes_eat ?_))))
  exact goes_finish rfl

theorem sentence_function (h : Regains (function · true) anyTok (.ident "function" :: ts) u) :
    Sentence (.ident "function" :: ts) u := by
  refine ⟨⟨_, _, rfl, nofun, nofun, by decide⟩, fun d hd rest made _ => ?_⟩
  refine .bind (goes_position fun start => .bind (goes_at? _ (.bind (goes_eat_other nofun ?_))))
  refine .bind (goes_peek fun t ht => ?_)
  rw [ht]
  refine .bind (goes_atWord _ ?_)
  exact h hd rfl

def declared (p : NestedTrees) : TreeRead Unit := do
  let nameStart ← position
  let name ← identifier
  let n ← counted do
    if ← eat .assign then p.assignment
  finish { kind := .name, text := some name } nameStart n

def declarationStep (p : NestedTrees) : TreeRead Bool := do
  declared p
  eat .comma

theorem declaration_eq (p : NestedTrees) (kind : Kind) (start : Nat) :
    declaration p kind start = (do
    let n ← counted (repeatedly (declarationStep p))
    let _ ← eat .semicolon
    finish { kind := kind } start n) := by
  simp only [declaration, declarationStep, declared, bind_assoc]

/-- A declared name that is read where a comma or a semicolon follows. -/
def Declared (ts : List Tok) (u : Tree) : Prop :=
  Regains declared (fun t => t = .punct .comma || t = .punct .semicolon) ts u

theorem ne_assign_of_stop {t : Tok} (h : (t = .punct .comma || t = .punct .semicolon) = true) :
    t ≠ .punct .assign ∧ t.stops .assign = true := by
  simp only [Bool.or_eq_true, decide_eq_true_eq] at h
  rcases h with rfl | rfl <;> exact ⟨nofun, rfl⟩

theorem declared_name {w : String} (hw : Lexer.isIdentifier w = true) :
    Declared [.ident w] (.of { kind := .name, text := some w } []) := by
  intro d hd rest made hstop
  refine .bind (goes_position fun start => .bind (goes_identifier hw (.bind (goes_counted ?_))))
  refine .bind (goes_eat_other (ne_assign_of_stop hstop).1 (goes_pure ?_))
  rw [Nat.sub_self]
  exact goes_finish rfl

theorem Phrase.declared {w : String} (h : Phrase k chain ambiguous ts u)
    (hk : Precedence.assign.rank ≤ k.rank) (hw : Lexer.isIdentifier w = true) :
    Declared (.ident w :: .punct .assign :: ts) (.of { kind := .name, text := some w } [u]) := by
  intro d hd rest made hstop
  refine .bind (goes_position fun start => .bind (goes_identifier hw (.bind (goes_counted ?_))))
  refine .bind (goes_eat ((h.assignment hk).goes hd (ne_assign_of_stop hstop).2 ?_))
  rw [List.length_cons, Nat.add_sub_cancel_left]
  exact goes_finish rfl

theorem repeats_declaration {i : ι} (h : ∀ j ∈ i :: is, Declared (toks j) (tree j))
    (hlen : ∀ j ∈ i :: is, 0 < (toks j).length) (hd : d ≤ maxParseDepth) :
    Repeats (declarationStep (levels d))
      ⟨commas ((i :: is).map toks) ++ .punct .semicolon :: rest, d, made⟩
      fun _ v => v = ⟨.punct .semicolon :: rest, d, ((i :: is).map tree).reverse ++ made⟩ := by
  induction is generalizing i made with
  | nil =>
    rw [List.map_singleton, commas_singleton]
    exact repeats_last
      (.bind ((h i List.mem_cons_self).goes hd rfl (goes_eat_other nofun ⟨rfl, rfl⟩)))
  | cons j is ih =>
    obtain ⟨hi, his⟩ := List.forall_mem_cons.mp h
    obtain ⟨hlen, hlens⟩ := List.forall_mem_cons.mp hlen
    rw [List.map_cons, List.map_cons, commas_cons_cons, List.append_assoc]
    refine repeats_next (.bind (hi.goes hd rfl (goes_eat ⟨rfl, by simp; omega, ?_⟩)))
    have := @ih (tree i :: made) j his hlens
    simpa using this

theorem declarationKind?_declarator {kind : Kind} (hk : kind.isDeclaration = true) :
    declarationKind? (.ident (Tree.declarator kind)) = some kind ∧
      Tree.declarator kind ≠ "else" := by
  cases kind
  case varDecl | letDecl | constDecl => exact ⟨rfl, by decide⟩
  all_goals cases hk

theorem sentence_declaration {i : ι} {kind : Kind} (hk : kind.isDeclaration = true)
    (h : ∀ j ∈ i :: is, Declared (toks j) (tree j)) (hlen : ∀ j ∈ i :: is, 0 < (toks j).length) :
    Sentence (.ident (Tree.declarator kind) :: (commas ((i :: is).map toks) ++ [.punct .semicolon]))
      (.of { kind := kind } ((i :: is).map tree)) := by
  obtain ⟨hkind, helse⟩ := declarationKind?_declarator hk
  refine ⟨⟨_, _, rfl, nofun, nofun, by simpa using helse⟩, fun d hd rest made _ => ?_⟩
  rw [List.cons_append, List.append_assoc]
  refine .bind (goes_position fun start => .bind (goes_at? _ (.bind (goes_eat_other nofun ?_))))
  refine .bind (goes_peek fun t ht => ?_)
  rw [ht, View.next, List.headD_cons, hkind]
  refine .bind (goes_advance Tok.noConfusion fun _ => ?_)
  rw [declaration_eq]
  refine .bind (goes_counted ((goes_repeatedly (repeats_declaration h hlen hd)).mono ?_))
  rintro _ v rfl
  exact .bind (goes_eat (goes_finish_row (by simp; omega) rfl))

theorem goes_statement_return {Q : Unit → View → Prop}
    (h : ∀ start, Goes (returnStatement (levels d) start) ⟨rest, d, made⟩ Q) :
    Goes (statement (levels d)) ⟨.ident "return" :: rest, d, made⟩ Q := by
  refine .bind (goes_position fun start => .bind (goes_at? _ (.bind (goes_eat_other nofun ?_))))
  refine .bind (goes_peek fun t ht => ?_)
  rw [ht]
  exact .bind
    (goes_atWord _ (.bind (goes_atWord _ (.bind (goes_advance Tok.noConfusion fun _ => h start)))))

theorem goes_statement_if {Q : Unit → View → Prop}
    (h : ∀ start, Goes (ifStatement (levels d) start) ⟨rest, d, made⟩ Q) :
    Goes (statement (levels d)) ⟨.ident "if" :: rest, d, made⟩ Q := by
  refine .bind (goes_position fun start => .bind (goes_at? _ (.bind (goes_eat_other nofun ?_))))
  refine .bind (goes_peek fun t ht => ?_)
  rw [ht]
  refine .bind (goes_atWord _ (.bind (goes_atWord _ (.bind (goes_atWord _ ?_)))))
  exact .bind (goes_advance Tok.noConfusion fun _ => h start)

theorem sentence_return :
    Sentence [.ident "return", .punct .semicolon] (.of { kind := .returnStmt } []) := by
  refine ⟨⟨_, _, rfl, nofun, nofun, by decide⟩,
    fun d hd rest made _ => goes_statement_return fun start => ?_⟩
  refine .bind
    (goes_counted (.bind (goes_at? _ (.bind (goes_at? _ (.bind (goes_atEnd (goes_pure ?_))))))))
  rw [Nat.sub_self]
  exact .bind (goes_eat (goes_finish rfl))

theorem Phrase.expression (h : Phrase k chain ambiguous ts u) :
    Regains (level · .comma) (Tok.stops .comma) ts u :=
  h.regains (Nat.zero_le _)

theorem Phrase.sentence_return (h : Phrase k chain ambiguous ts u) :
    Sentence (.ident "return" :: (ts ++ [.punct .semicolon]))
      (.of { kind := .returnStmt } [u]) := by
  obtain ⟨tok, us, e, ho⟩ := h.opens
  have hhead : ∀ vs, (ts ++ vs).headD .eof = tok := fun vs => by rw [e]; rfl
  refine ⟨⟨_, _, rfl, nofun, nofun, by decide⟩, fun d hd rest made _ => ?_⟩
  rw [List.cons_append, List.append_assoc]
  refine goes_statement_return fun start => ?_
  refine .bind (goes_counted (.bind (goes_at? _ (.bind (goes_at? _ (.bind (goes_atEnd ?_)))))))
  rw [View.next, hhead, decide_eq_false (ho.ne rfl), decide_eq_false (ho.ne rfl),
    decide_eq_false (ho.ne rfl)]
  refine h.expression.goes hd rfl ?_
  rw [List.length_cons, Nat.add_sub_cancel_left]
  exact .bind (goes_eat (goes_finish rfl))

theorem Regains.branch (h : Regains block anyTok (.punct .leftBrace :: ts) u) :
    Regains Reader.branch anyTok (.punct .leftBrace :: ts) u :=
  fun _ hd _ _ _ => .bind (goes_at? _ (h hd rfl))

theorem Phrase.sentence_if (h : Phrase k chain ambiguous ts t)
    (hu : Regains block anyTok (.punct .leftBrace :: us) u) :
    Sentence (.ident "if" :: .punct .leftParen ::
      (ts ++ .punct .rightParen :: .punct .leftBrace :: us))
      (.of { kind := .ifStmt } [t, u]) := by
  refine ⟨⟨_, _, rfl, nofun, nofun, by decide⟩, fun d hd rest made hstop => ?_⟩
  simp only [List.cons_append, List.append_assoc]
  refine goes_statement_if fun start => .bind (goes_expect (.bind (goes_counted ?_)))
  refine .bind (h.expression.goes hd rfl (.bind (goes_expect ?_)))
  refine .bind (hu.branch.goes hd rfl (.bind (goes_atWord _ ?_)))
  rw [View.next, decide_eq_false (of_decide_eq_true hstop)]
  refine goes_pure ?_
  rw [List.length_cons, List.length_cons, Nat.add_assoc, Nat.add_sub_cancel_left]
  exact goes_finish rfl

theorem Phrase.sentence_else {vs : List Tok} {v : Tree} (h : Phrase k chain ambiguous ts t)
    (hu : Regains block anyTok (.punct .leftBrace :: us) u)
    (hv : Regains block anyTok (.punct .leftBrace :: vs) v) :
    Sentence (.ident "if" :: .punct .leftParen ::
        (ts ++ .punct .rightParen :: .punct .leftBrace ::
          (us ++ .ident "else" :: .punct .leftBrace :: vs)))
      (.of { kind := .ifStmt } [t, u, v]) := by
  refine ⟨⟨_, _, rfl, nofun, nofun, by decide⟩, fun d hd rest made hstop => ?_⟩
  simp only [List.cons_append, List.append_assoc]
  refine goes_statement_if fun start => .bind (goes_expect (.bind (goes_counted ?_)))
  refine .bind (h.expression.goes hd rfl (.bind (goes_expect ?_)))
  refine .bind (hu.branch.goes hd rfl (.bind (goes_atWord _ ?_)))
  refine .bind (goes_advance Tok.noConfusion fun _ => hv.branch.goes hd rfl ?_)
  rw [List.length_cons, List.length_cons, List.length_cons, Nat.add_assoc, Nat.add_assoc,
    Nat.add_sub_cancel_left]
  exact goes_finish rfl

theorem Phrase.sentence (h : Phrase k chain false ts u) :
    Sentence (ts ++ [.punct .semicolon]) (.of { kind := .exprStmt } [u]) := by
  obtain ⟨tok, us, e, ho⟩ := h.opens
  have hhead : ∀ vs, (ts ++ vs).headD .eof = tok := fun vs => by rw [e]; rfl
  obtain ⟨hbrace, hfunction⟩ := ho.clear rfl
  have hkind : declarationKind? tok = none := by
    unfold declarationKind?
    split
    case h_4 => rfl
    all_goals exact absurd rfl (ho.ne (by decide))
  refine ⟨⟨tok, us ++ [.punct .semicolon], by rw [e]; rfl, ho.ne rfl, ho.ne rfl, ho.ne (by decide)⟩,
    fun d hd rest made _ => ?_⟩
  rw [List.append_assoc]
  refine .bind (goes_position fun start => .bind (goes_at? _ ?_))
  rw [View.next, hhead, decide_eq_false hbrace]
  refine .bind
    (goes_eat_other (by rw [View.next, hhead]; exact ho.ne rfl) (.bind (goes_peek fun t ht => ?_)))
  rw [ht, View.next, hhead, hkind]
  refine .bind (goes_atWord _ ?_)
  rw [View.next, hhead, decide_eq_false hfunction]
  refine .bind (goes_atWord _ ?_)
  rw [View.next, hhead, decide_eq_false (ho.ne (by decide))]
  refine .bind (goes_atWord _ ?_)
  rw [View.next, hhead, decide_eq_false (ho.ne (by decide))]
  exact .bind (h.expression.goes hd rfl (.bind (goes_eat (goes_finish rfl))))

end Reader

end ChainLowering
