import ChainLowering.Proofs.Beside
import ChainLowering.Proofs.Sentences

/-!
# Readers that go through alike

Every reader of a part goes through in the longer text as it does on its own,
and finishes the same tree some bytes further on. Readers of deeper levels are
taken for granted. A statement may end right after its semicolon, and then
nothing is known of what comes next; an expression ends before a token that
it has seen.
-/

namespace ChainLowering

namespace Reader

variable {S : Site} {seen : Bool} {r₀ r r' : TreeReader} {ts : List Tree} {start : Nat}

theorem run_at? {β : Type} (p : Punct) (f : Bool → TreeRead β) (r : TreeReader) :
    (at? p >>= f).run r = (f (r.current.tok = .punct p)).run r := rfl

theorem run_atEnd {β : Type} (f : Bool → TreeRead β) (r : TreeReader) :
    (atEnd >>= f).run r = (f (r.current.tok = .eof)).run r := rfl

structure Nested.Alike (S : Site) (p : NestedTrees) : Prop where
  statement : Adds S false p.statement
  assignment : Adds S true p.assignment
  operand : Adds S true p.operand

theorem adds_leftNested {operators : List (Punct × Kind)} {operand : TreeRead Unit}
    (hx : Adds S true operand) (hops : ∀ o ∈ operators, o.1 ≠ .semicolon) :
    Adds S true (leftNested operators operand) := by
  intro r r' h
  rw [leftNested_eq]
  refine follows_position h (hx.first h fun t r₁ r₁' h₁ => ?_)
  refine follows_repeatedly (I := fun r₁ r₁' => ∃ t, Since S r [t] true r₁ r₁')
    (J := fun r₁ r₁' => ∃ t, Since S r [t] true r₁ r₁') ?_ ⟨t, h₁⟩ h₁.toBeside
  rintro r₁ r₁' ⟨t, h₁⟩
  refine follows_peek h₁.toBeside ?_
  rw [Token.tok_moved]
  cases hfound : operators.find? (fun o => r₁.current.tok = .punct o.1) with
  | none => exact follows_pure ⟨t, h₁⟩
  | some o =>
    have ho := List.find?_some hfound
    rw [decide_eq_true_eq] at ho
    have hsemi := hops o (List.mem_of_find?_eq_some hfound)
    refine follows_take h₁.toBeside ho Tok.noConfusion (fun e => hsemi (Tok.punct.inj e))
      fun r₂ r₂' h₂ => ?_
    refine hx.then (h₁.took h₂) fun u r₃ r₃' h₃ => ?_
    exact .bind ((h₃.finish rfl rfl).mono fun _ _ _ h => follows_pure h)

section
variable {p : NestedTrees} (hp : p.Alike S)
include hp

theorem adds_expression : Adds S true (expression p) := by
  rw [expression_eq]
  exact adds_leftNested hp.assignment (by simp)

/-! ## Statements -/

theorem follows_blockSteps (h : Since S r₀ ts true r r') :
    Follows (repeatedly (blockStep p)) (repeatedly (blockStep p)) r r'
      fun _ r₁ r₁' => ∃ us, Since S r₀ (ts ++ us) true r₁ r₁' ∧
      r₁.current.tok = .punct .rightBrace := by
  refine follows_repeatedly (I := fun r r' => ∃ us, Since S r₀ (ts ++ us) false r r')
    (J := fun r r' => ∃ us, Since S r₀ (ts ++ us) true r r' ∧ r.current.tok = .punct .rightBrace) ?_
    ⟨[], by rw [List.append_nil]; exact h.weaken⟩ h.toBeside
  rintro r r' ⟨us, h⟩
  by_cases he : r.current.tok = .eof
  · -- the readers may stand before different tokens, but the first one fails
    intro v r₁ hx
    rw [blockStep, run_at?, he, if_neg (by simp)] at hx
    change (atEnd >>= _).run r = _ at hx
    rw [run_atEnd, he, if_pos (by simp)] at hx
    cases hx
  · have hlook := h.look he
    refine follows_at? hlook.toBeside (follows_ite (fun hb => ?_) fun _ => ?_)
    · exact follows_pure ⟨us, hlook, of_decide_eq_true hb⟩
    · refine follows_atEnd hlook.toBeside ?_
      rw [decide_eq_false he]
      refine hp.statement.then hlook fun t r₁ r₁' h₁ => follows_pure ⟨us ++ [t], ?_⟩
      rwa [List.append_assoc] at h₁

theorem adds_block : Adds S true (block p) := by
  intro r r' h
  rw [block_eq]
  refine follows_position h (follows_expect h nofun fun r₁ r₁' h₁ => h₁.counted ?_)
  refine (follows_blockSteps hp h₁).mono fun _ r₂ r₂' ⟨us, h₂, hbrace⟩ => ⟨us, _, h₂, ?_⟩
  exact follows_take h₂.toBeside hbrace nofun nofun fun r₃ r₃' h₃ => (h₂.took h₃).finish rfl rfl

theorem adds_branch : Adds S false (branch p) := by
  intro r r' h
  refine follows_at? h (follows_ite (fun _ => (adds_block hp).weaken r r' h) fun _ => ?_)
  exact follows_position h (hp.statement.first h fun t r₁ r₁' h₁ => h₁.finish rfl rfl)

theorem adds_declared : Adds S true (declared p) := by
  intro r r' h
  refine follows_position h (follows_identifier h fun w r₁ r₁' h₁ => h₁.counted ?_)
  have hvalue : Follows (do if ← eat .assign then p.assignment)
    (do if ← eat .assign then p.assignment) r₁ r₁'
      fun _ r₂ r₂' => ∃ us, Since S r us true r₂ r₂' := by
    refine follows_eat h₁.toBeside nofun (fun r₂ r₂' h₂ => ?_) (follows_pure ⟨[], h₁⟩)
    exact (hp.assignment.since (h₁.took h₂)).mono fun _ _ _ ⟨t, h₃⟩ => ⟨[t], h₃⟩
  exact hvalue.mono fun _ _ _ ⟨us, h₂⟩ => ⟨us, _, h₂, h₂.finish rfl rfl⟩

theorem follows_declaration (h : Since S r₀ [] true r r') (kind : Kind)
    (hstart : start = r₀.current.start) :
    Follows (declaration p kind start) (declaration p kind (start + S.shift)) r r' fun _ r₁ r₁' =>
      ∃ t, Since S r₀ [t] false r₁ r₁' := by
  rw [declaration_eq, declaration_eq]
  refine h.counted ?_
  have hnames : Follows (repeatedly (declarationStep p)) (repeatedly (declarationStep p)) r r'
      fun _ r₁ r₁' => ∃ us, Since S r₀ us true r₁ r₁' := by
    refine follows_repeatedly (I := fun r r' => ∃ us, Since S r₀ us true r r') ?_ ⟨[], h⟩ h.toBeside
    rintro r r' ⟨us, h⟩
    refine (adds_declared hp).then h fun t r₁ r₁' h₁ => ?_
    rw [← bind_pure (eat .comma)]
    exact follows_eat h₁.toBeside nofun (fun r₂ r₂' h₂ => follows_pure ⟨_, h₁.took h₂⟩)
      (follows_pure ⟨_, h₁⟩)
  exact hnames.mono fun _ _ _ ⟨us, h₁⟩ => ⟨us, _, h₁, h₁.skip fun _ _ h₂ => h₂.finish rfl hstart⟩

theorem follows_functionRest {Q : Unit → TreeReader → TreeReader → Prop} (h : Beside S true r r')
    (hQ : ∀ t u r₁ r₁', Since S r [t, u] true r₁ r₁' →
      Follows (finish { kind := .function } start 3)
        (finish { kind := .function } (start + S.shift) 3) r₁ r₁' Q) :
    Follows (functionRest p start) (functionRest p (start + S.shift)) r r' Q := by
  refine follows_position h (follows_expect h nofun fun r₁ r₁' h₁ => h₁.counted ?_)
  refine (h₁.separated .rightParen nofun adds_nameNode).mono fun _ r₂ r₂' ⟨us, h₂⟩ =>
    ⟨us, _, h₂, ?_⟩
  refine .bind ((h₂.finish rfl rfl).mono fun _ r₃ r₃' ⟨t, h₃⟩ => ?_)
  exact (adds_block hp).then h₃ fun u r₄ r₄' h₄ => hQ t u r₄ r₄' h₄

theorem follows_function (h : Beside S true r r') (hr : r.current.tok = .ident "function")
    (must : Bool) :
    Follows (function p must) (function p must) r r' fun _ r₁ r₁' => ∃ t,
      Since S r [t] true r₁ r₁' := by
  refine follows_position h (follows_take h hr nofun nofun fun r₁ r₁' h₁ => ?_)
  refine follows_at? h₁.toBeside (follows_ite (fun _ => ?_) fun _ => ?_)
  · refine adds_nameNode.then h₁ fun t r₂ r₂' h₂ =>
      follows_functionRest hp h₂.toBeside fun u v r₃ r₃' h₃ => ?_
    exact (h₂.trans h₃).finish rfl rfl
  · -- the empty name is on the stack but in no row
    have hmade : r₁.made = ([] : List Tree).reverse ++ r.made := h₁.trees
    refine .bind
      (follows_push rfl hmade h₁.made rfl (follows_functionRest hp ?_ fun u v r₃ r₃' h₃ => ?_))
    · exact ⟨h₁.order, h₁.border, h₁.depth, rfl, h₁.sees⟩
    · refine h₃.finishOnto [_] rfl h₁.level h.current_place (h₁.row.le.trans h₁.le_current)
        ?_ rfl rfl
      simp [Tree.placed, Tree.isUnnamed, Tree.of]

theorem follows_returnStatement (h : Since S r₀ [] true r r') (hstart : start = r₀.current.start) :
    Follows (returnStatement p start) (returnStatement p (start + S.shift)) r r' fun _ r₁ r₁' =>
      ∃ t, Since S r₀ [t] false r₁ r₁' := by
  refine h.counted ?_
  have hvalue :
    Follows (do if !(← at? .semicolon) && !(← at? .rightBrace) && !(← atEnd) then expression p)
      (do if !(← at? .semicolon) && !(← at? .rightBrace) && !(← atEnd) then expression p) r r'
      fun _ r₁ r₁' => ∃ us, Since S r₀ us true r₁ r₁' := by
    refine follows_at? h.toBeside
      (follows_at? h.toBeside (follows_atEnd h.toBeside (follows_ite (fun _ => ?_) fun _ => ?_)))
    · exact ((adds_expression hp).since h).mono fun _ _ _ ⟨t, h₁⟩ => ⟨[t], h₁⟩
    · exact follows_pure ⟨[], h⟩
  exact hvalue.mono fun _ _ _ ⟨us, h₁⟩ => ⟨us, _, h₁, h₁.skip fun _ _ h₂ => h₂.finish rfl hstart⟩

theorem follows_ifStatement (h : Since S r₀ [] true r r') (hstart : start = r₀.current.start) :
    Follows (ifStatement p start) (ifStatement p (start + S.shift)) r r' fun _ r₁ r₁' => ∃ t,
      Since S r₀ [t] false r₁ r₁' := by
  refine follows_expect h.toBeside nofun fun r₁ r₁' h₁ => (h.took h₁).counted ?_
  have hparts : Follows (do
        expression p
        expect .rightParen
        branch p
        if ← atWord "else" then
          let _ ← advance
          branch p) (do
        expression p
        expect .rightParen
        branch p
        if ← atWord "else" then
          let _ ← advance
          branch p) r₁ r₁' fun _ r₂ r₂' => ∃ us, Since S r₀ us false r₂ r₂' := by
    refine (adds_expression hp).then (h.took h₁) fun t r₂ r₂' h₂ => ?_
    refine follows_expect h₂.toBeside nofun fun r₃ r₃' h₃ => ?_
    refine (adds_branch hp).then (h₂.took h₃) fun u r₄ r₄' h₄ =>
      follows_else h₄.toBeside (follows_ite (fun he => ?_) fun _ => ?_)
    · have hword := of_decide_eq_true he
      have hlook := h₄.look (by rw [hword]; nofun)
      refine follows_take hlook.toBeside hword nofun nofun fun r₅ r₅' h₅ => ?_
      exact ((adds_branch hp).since (hlook.took h₅)).mono fun _ _ _ ⟨v, h₆⟩ => ⟨_, h₆⟩
    · exact follows_pure ⟨_, h₄⟩
  exact hparts.mono fun _ _ _ ⟨us, h₂⟩ => ⟨us, _, h₂, h₂.finish rfl hstart⟩

theorem adds_statement : Adds S false (statement p) := by
  intro r r' h
  refine follows_position h
    (follows_at? h (follows_ite (fun _ => (adds_block hp).weaken r r' h) fun _ => ?_))
  refine follows_eat_seen false h Bool.noConfusion (fun r₁ r₁' h₁ => h₁.finish rfl rfl) fun _ => ?_
  refine follows_peek h ?_
  rw [Token.tok_moved]
  cases hk : declarationKind? r.current.tok with
  | some kind =>
    have hword : ∃ w, r.current.tok = .ident w := by
      unfold declarationKind? at hk
      split at hk <;> first | exact ⟨_, by assumption⟩ | cases hk
    obtain ⟨w, hw⟩ := hword
    exact follows_take h hw nofun nofun fun r₁ r₁' h₁ => follows_declaration hp h₁ kind rfl
  | none =>
    refine follows_atWord h (follows_ite (fun he => ?_) fun _ => ?_)
    · exact (follows_function hp h (of_decide_eq_true he) true).mono fun _ _ _ ⟨t, h₁⟩ =>
        ⟨t, h₁.weaken⟩
    refine follows_atWord h (follows_ite (fun he => ?_) fun _ => ?_)
    · exact follows_take h (of_decide_eq_true he) nofun nofun fun r₁ r₁' h₁ =>
        follows_returnStatement hp h₁ rfl
    refine follows_atWord h (follows_ite (fun he => ?_) fun _ => ?_)
    · exact follows_take h (of_decide_eq_true he) nofun nofun fun r₁ r₁' h₁ =>
        follows_ifStatement hp h₁ rfl
    · exact (adds_expression hp).first h fun t r₁ r₁' h₁ => h₁.skip fun _ _ h₂ => h₂.finish rfl rfl

/-! ## Expressions -/

theorem adds_objectEntry : Adds S true (objectEntry p) := by
  intro r r' h
  have hvalue {r₁ r₁' : TreeReader} (key : String) (h₁ : Since S r [] true r₁ r₁') : Follows (do
      expect .colon
      p.assignment
      finish { kind := .objectKey, text := some key } r.current.start 1) (do
      expect .colon
      p.assignment
      finish { kind := .objectKey, text := some key } (r.current.start + S.shift) 1) r₁ r₁'
      fun _ r₂ r₂' => ∃ t, Since S r [t] true r₂ r₂' := by
    refine follows_expect h₁.toBeside nofun fun r₂ r₂' h₂ => ?_
    exact hp.assignment.then (h₁.took h₂) fun t r₃ r₃' h₃ => h₃.finish rfl rfl
  refine follows_position h (follows_peek h ?_)
  rw [Token.tok_moved]
  cases ht : r.current.tok with
  | string w => exact follows_take h ht nofun nofun fun r₁ r₁' h₁ => hvalue w h₁
  | _ => exact follows_propertyName h fun w r₁ r₁' h₁ => hvalue w h₁

theorem adds_objectLiteral : Adds S true (objectLiteral p) := by
  intro r r' h
  rw [objectLiteral_eq]
  refine follows_position h (follows_expect h nofun fun r₁ r₁' h₁ => h₁.counted ?_)
  exact (h₁.separated .rightBrace nofun (adds_objectEntry hp)).mono fun _ r₂ r₂' ⟨us, h₂⟩ =>
    ⟨us, _, h₂, h₂.finish rfl rfl⟩

theorem adds_primary : Adds S true (primary p) := by
  intro r r' h
  refine follows_position h (follows_peek h ?_)
  rw [Token.tok_moved]
  split
  · rename_i ht
    refine follows_take h ht nofun nofun fun r₁ r₁' h₁ =>
      (adds_expression hp).then h₁ fun t r₂ r₂' h₂ => ?_
    rw [← bind_pure (expect .rightParen)]
    exact follows_expect h₂.toBeside nofun fun r₃ r₃' h₃ => follows_pure ⟨t, h₂.took h₃⟩
  · exact adds_objectLiteral hp r r' h
  · rename_i ht
    exact follows_take h ht nofun nofun fun r₁ r₁' h₁ => h₁.finish rfl rfl
  · rename_i ht
    exact follows_take h ht nofun nofun fun r₁ r₁' h₁ => h₁.finish rfl rfl
  · rename_i w ht
    cases constantKind? w with
    | some kind => exact follows_take h ht nofun nofun fun r₁ r₁' h₁ => h₁.finish rfl rfl
    | none =>
      refine follows_ite (fun hw => follows_function hp h ?_ false) fun _ => adds_nameNode r r' h
      rw [ht, hw]
  · exact follows_unexpected

theorem follows_link {t : Tree} (h : Since S r₀ [t] true r r') (hstart : start = r₀.current.start)
    (inChain : Bool) :
    Follows (link p start inChain) (link p (start + S.shift) inChain) r r' fun _ r₁ r₁' => ∃ u,
      Since S r₀ [u] true r₁ r₁' := by
  -- a link ends with a node in each of its forms, after arguments or a key if there are any
  have hnode {o : Option Bool} {l : Label} {n : Nat} {us : List Tree} {r₁ r₁' : TreeReader}
    (h₁ : Since S r₀ us true r₁ r₁')
      (hn : n = us.length) : Follows (do finish l start n; return o)
        (do finish l (start + S.shift) n; return o) r₁ r₁'
      fun _ r₂ r₂' => ∃ u, Since S r₀ [u] true r₂ r₂' :=
    .bind ((h₁.finish hn hstart).mono fun _ _ _ h₂ => follows_pure h₂)
  have hargs {o : Option Bool} {l : Label} {r₁ r₁' : TreeReader} (h₁ : Since S r₀ [t] true r₁ r₁') :
    Follows (do
      let n ← counted (separated .rightParen p.assignment)
      finish l start (n + 1)
      return o) (do
      let n ← counted (separated .rightParen p.assignment)
      finish l (start + S.shift) (n + 1)
      return o) r₁ r₁' fun _ r₂ r₂' => ∃ u, Since S r₀ [u] true r₂ r₂' :=
    h₁.counted ((h₁.separated .rightParen nofun hp.assignment).mono fun _ r₂ r₂' ⟨us, h₂⟩ =>
      ⟨us, _, h₂, hnode h₂ rfl⟩)
  have hkey {o : Option Bool} {l : Label} {r₁ r₁' : TreeReader} (h₁ : Since S r₀ [t] true r₁ r₁') :
    Follows (do
      key p
      finish l start 2
      return o) (do
      key p
      finish l (start + S.shift) 2
      return o) r₁ r₁' fun _ r₂ r₂' => ∃ u, Since S r₀ [u] true r₂ r₂' := by
    rw [key, bind_assoc, bind_assoc]
    refine (adds_expression hp).then h₁ fun u r₂ r₂' h₂ => ?_
    exact follows_expect h₂.toBeside nofun fun r₃ r₃' h₃ => hnode (h₂.took h₃) rfl
  refine follows_eat h.toBeside nofun (fun r₁ r₁' h₁ => ?_) ?_
  · have h₁ := h.took h₁
    refine follows_eat h₁.toBeside nofun (fun r₂ r₂' h₂ => hargs (h₁.took h₂)) ?_
    refine follows_eat h₁.toBeside nofun (fun r₂ r₂' h₂ => hkey (h₁.took h₂)) ?_
    exact follows_propertyName h₁.toBeside fun w r₂ r₂' h₂ => hnode (h₁.took h₂) rfl
  refine follows_eat h.toBeside nofun (fun r₁ r₁' h₁ => ?_) ?_
  · exact follows_propertyName h₁.toBeside fun w r₂ r₂' h₂ => hnode ((h.took h₁).took h₂) rfl
  refine follows_eat h.toBeside nofun (fun r₁ r₁' h₁ => hkey (h.took h₁)) ?_
  exact follows_eat h.toBeside nofun (fun r₁ r₁' h₁ => hargs (h.took h₁)) (follows_pure ⟨t, h⟩)

theorem adds_linked : Adds S true (linked p) := by
  intro r r' h
  refine follows_position h ((adds_primary hp).first h fun t r₁ r₁' h₁ => ?_)
  refine follows_iterate (I := fun _ r₁ r₁' => ∃ t, Since S r [t] true r₁ r₁')
    ?_ false ⟨t, h₁⟩ h₁.toBeside
  rintro c r₁ r₁' ⟨t, h₁⟩
  refine (follows_link hp h₁ rfl c).mono fun o r₂ r₂' h₂ => ?_
  cases o <;> exact h₂

theorem adds_unary : Adds S true (unary p) := by
  intro r r' h
  refine follows_position h (follows_eat h nofun (fun r₁ r₁' h₁ => ?_) ?_)
  · exact hp.operand.then h₁ fun t r₂ r₂' h₂ => h₂.finish rfl rfl
  refine follows_atWord h (follows_ite (fun he => ?_) fun _ => adds_linked hp r r' h)
  refine follows_take h (of_decide_eq_true he) nofun nofun fun r₁ r₁' h₁ => ?_
  exact hp.operand.then h₁ fun t r₂ r₂' h₂ => h₂.finish rfl rfl

theorem adds_disjunction : Adds S true (disjunction p) :=
  adds_leftNested (adds_leftNested (adds_leftNested (adds_unary hp) (by simp)) (by simp)) (by simp)

theorem adds_conditional : Adds S true (conditional p) := by
  intro r r' h
  refine follows_position h ((adds_disjunction hp).first h fun t r₁ r₁' h₁ => ?_)
  refine follows_eat h₁.toBeside nofun (fun r₂ r₂' h₂ => ?_) (follows_pure ⟨t, h₁⟩)
  refine hp.assignment.then (h₁.took h₂) fun u r₃ r₃' h₃ =>
    follows_expect h₃.toBeside nofun fun r₄ r₄' h₄ => ?_
  exact hp.assignment.then (h₃.took h₄) fun v r₅ r₅' h₅ => h₅.finish rfl rfl

theorem adds_assignment : Adds S true (assignment p) := by
  intro r r' h
  refine follows_position h ((adds_conditional hp).first h fun t r₁ r₁' h₁ => ?_)
  refine follows_at? h₁.toBeside (follows_ite (fun he => ?_) fun _ => follows_pure ⟨t, h₁⟩)
  refine follows_get ?_
  have htop : NodeStack.topKind? r₁.made = t.kind? := by rw [h₁.trees]; rfl
  have htop' : NodeStack.topKind? r₁'.made = t.kind? := by
    rw [h₁.made, h₁.trees]; exact Tree.kind?_moved ..
  rw [htop, htop']
  refine follows_ite (fun _ => .bind follows_throw) fun _ => ?_
  refine follows_take h₁.toBeside (of_decide_eq_true he) nofun nofun fun r₂ r₂' h₂ => ?_
  exact hp.assignment.then (h₁.took h₂) fun u r₃ r₃' h₃ => h₃.finish rfl rfl

omit hp in
/-- What is read does not depend on how deep it may be nested, as long as it is not nested too
deeply. -/
theorem alike_nested (k : Nat) : (nested k).Alike S := by
  induction k with
  | zero =>
    exact ⟨fun _ _ _ => follows_throw, fun _ _ _ => follows_throw, fun _ _ _ => follows_throw⟩
  | succ k ih =>
      exact ⟨adds_deeper (adds_statement ih), adds_deeper (adds_assignment ih),
        adds_deeper (adds_unary ih)⟩

end

end Reader

end ChainLowering
