import ChainLowering.Proofs.InStep
import ChainLowering.Proofs.ReadEnds

/-!
# Levels of nesting

A reader is built from readers of deeper levels, and a level is entered only
after it has been counted. So however many levels are offered, what is read is
the same as long as they are as many as may still be entered.
-/

namespace ChainLowering

namespace Reader

variable {σ : Type}

/-- A state in which something may be read. -/
structure Ready (r : Reader σ) : Prop where
  last : ∃ t ∈ r.tokens.getLast?, t.tok = .eof
  depth : r.depth ≤ maxParseDepth
  peak : r.peak ≤ maxParseDepth + 1

/-- What has been read has taken a token and left as many levels as it entered. -/
def Progressed (r : Reader σ) : Except (Halt ReadError) Unit × Reader σ → Prop
  | (.ok (), r') => r'.Ready ∧ r'.depth = r.depth ∧ r'.tokens <:+ r.tokens ∧
      r'.tokens.length < r.tokens.length
  | (.error (.error _), r') => r'.peak ≤ maxParseDepth + 1
  | (.error (.fault _), _) => False

section
variable {r : Reader σ} {n : Nat}

theorem Ready.stands (h : r.Ready) (hn : maxParseDepth < r.depth + n) :
    Stands (fun _ => True) n r :=
  ⟨⟨h.last, fun _ _ => trivial⟩, h.depth, hn, h.peak⟩

theorem Stands.ready (h : Stands (fun _ => True) n r) : r.Ready := ⟨h.closes.last, h.depth, h.peak⟩

theorem Stands.progressed {x : Read σ Unit} (h : Stands (fun _ => True) n r)
    (hx : Takes (fun _ => True) n x) :
    Progressed r (x.run r) := by
  have hends := hx _ r h rfl
  rcases hrun : x.run r with ⟨(e | f) | v, r'⟩ <;> rw [hrun] at hends
  · exact hends.2
  · exact hends
  · obtain ⟨ha, hless⟩ := hends
    exact ⟨(h.after ha).ready, ha.depth, ha.tokens, hless trivial⟩

theorem InStep.run_eq {x y : Read σ Unit} (h : InStep Eq x y) (hx : Progressed r (x.run r)) :
    x.run r = y.run r := by
  obtain hbound | ⟨hvalue, hleft⟩ := h r r ⟨rfl, rfl, rfl, rfl, rfl⟩
  · rcases hrun : x.run r with ⟨e, r'⟩
    rw [hrun] at hx hbound
    cases hbound
    exact hx.elim
  · exact Prod.ext hvalue hleft.eq

theorem InStep.map_run {xs ys : List (Read σ Unit)} (h : List.Forall₂ (InStep Eq) xs ys)
    (hx : ∀ x ∈ xs, Progressed r (x.run r)) : xs.map (·.run r) = ys.map (·.run r) := by
  induction h with
  | nil => rfl
  | cons h _ ih =>
    rw [List.forall_mem_cons] at hx
    rw [List.map_cons, List.map_cons, h.run_eq hx.1, ih hx.2]

variable [NodeStack σ]

/-- The readers that take part in the recursion. -/
def Nested.readers (p : Nested σ) : List (Read σ Unit) :=
  [p.statement, block p, expression p, p.assignment, unary p, linked p, primary p, function p true,
    function p false]

theorem Nested.Moving.takes {P : Nat → Prop} {p : Nested σ} (h : p.Moving P n) :
    ∀ x ∈ p.readers, Takes P n x := by
  simp only [Nested.readers, List.forall_mem_cons]
  exact ⟨h.statement, takes_block h, takes_expression h, h.assignment, takes_unary h,
    takes_linked h, takes_primary h, takes_function h true, takes_function h false,
    List.forall_mem_nil _⟩

theorem Nested.InStep.readers {τ : Type} [NodeStack τ] {M : σ → τ → Prop} [NodeStack.Agree M]
    {p : Nested σ} {q : Nested τ} (h : p.InStep M q) :
    List.Forall₂ (Reader.InStep M) p.readers q.readers := by
  apply List.Forall₂.cons h.statement
  apply List.Forall₂.cons (InStep.block h)
  apply List.Forall₂.cons (InStep.expression h)
  apply List.Forall₂.cons h.assignment
  apply List.Forall₂.cons (InStep.unary h)
  apply List.Forall₂.cons (InStep.linked h)
  apply List.Forall₂.cons (InStep.primary h)
  apply List.Forall₂.cons (InStep.function h true)
  exact .cons (InStep.function h false) .nil

/-- Where as many levels are offered as may still be entered, each reader comes to an end. It gets
past a token and leaves every level it entered, or meets an error. More levels change nothing, so no
deeper one is ever asked to read. -/
theorem readers_progress (h : r.Ready) (hn : maxParseDepth < r.depth + n) :
    (∀ x ∈ (nested n).readers, Progressed r (x.run r)) ∧
      ∀ m, maxParseDepth < r.depth + m →
        (nested m).readers.map (·.run r) = (nested n).readers.map (·.run r) := by
  have hends {k : Nat} (hk : maxParseDepth < r.depth + k) : ∀ x ∈ (nested k).readers,
      Progressed r (x.run r) :=
    fun x hx => (h.stands hk).progressed ((moving_nested k).takes x hx)
  refine ⟨hends hn, fun m hm => ?_⟩
  rcases Nat.le_total m n with hmn | hnm
  · exact InStep.map_run (nested_inStep hmn).readers (hends hm)
  · exact (InStep.map_run (nested_inStep hnm).readers (hends hn)).symm

end

/-- With one level left, `!a` is an operand but no expression. -/
theorem readers_progress_sample :
    let r : Reader Nursery :=
      { tokens := [⟨.punct .bang, 0, 1⟩, ⟨.ident "a", 1, 2⟩, ⟨.eof, 2, 2⟩], depth := 255,
        peak := 255, made := { arena := {} } }
    r.Ready ∧ maxParseDepth < r.depth + 2 ∧ (∀ x ∈ (nested 2).readers, Progressed r (x.run r)) ∧
      (nested 9).readers.map (·.run r) = (nested 2).readers.map (·.run r) ∧
      ((unary (nested 2)).run r).1 = .ok () ∧
      ((expression (nested 2)).run r).1 = .error (.error (.tooDeep 1)) := by
  intro r
  have hr : r.Ready := ⟨⟨⟨.eof, 2, 2⟩, rfl, rfl⟩, by decide, by decide⟩
  have hn : maxParseDepth < r.depth + 2 := by decide
  obtain ⟨hread, hmore⟩ := readers_progress hr hn
  exact ⟨hr, hn, hread, hmore 9 (by decide), rfl, rfl⟩

end Reader

end ChainLowering
