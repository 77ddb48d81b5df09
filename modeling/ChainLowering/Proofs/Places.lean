import ChainLowering.Proofs.Grammar
import ChainLowering.Proofs.Scanning
import ChainLowering.Proofs.TreeReader

/-!
# Where tokens and trees stand

Tokens stand in a text one after the other. Trees side by side do so as well,
and what is below a node stands between its two ends. A text may also stand
some way into a longer one, and then all its places move.
-/

namespace ChainLowering

/-! ## Places that move -/

def Token.moved (k : Nat) (t : Token) : Token := { t with start := t.start + k, stop := t.stop + k }

def Label.moved (k : Nat) (l : Label) : Label :=
  { l with start := l.start.map (· + k), stop := l.stop.map (· + k) }

@[simp] theorem Token.tok_moved (k : Nat) (t : Token) : (t.moved k).tok = t.tok := rfl

@[simp] theorem Token.start_moved (k : Nat) (t : Token) : (t.moved k).start = t.start + k := rfl

@[simp] theorem Token.moved_zero : Token.moved 0 = id := rfl

@[simp] theorem Label.moved_zero (l : Label) : l.moved 0 = l := by
  simp [Label.moved]

namespace Tree

/-- What is missing stays missing. -/
def moved (k : Nat) : Tree → Tree
  | node l n c => node (l.moved k) n fun i => (c i).moved k
  | t => t

@[simp] theorem moved_of (k : Nat) (l : Label) (ts : List Tree) :
    (of l ts).moved k = of (l.moved k) (ts.map (moved k)) := by
  rw [of, moved, of, List.length_map]
  congr 1
  funext i
  rw [List.getD_eq_getElem?_getD, List.getD_eq_getElem?_getD, List.getElem?_map]
  cases ts[i]? <;> rfl

@[simp] theorem moved_zero : moved 0 = id := by
  funext t
  induction t with
  | absent | dangling => rfl
  | node l n c ih => simp [moved, ih]

@[simp] theorem kind?_moved (k : Nat) (t : Tree) : (t.moved k).kind? = t.kind? := by
  cases t <;> rfl

end Tree

/-! ## Tokens in order -/

/-- From byte `n` on, between places where `P` holds. -/
def Token.InOrder (P : Nat → Prop) : Nat → List Token → Prop
  | _, [] => True
  | n, t :: ts => n ≤ t.start ∧ t.start ≤ t.stop ∧ P t.start ∧ P t.stop ∧ InOrder P t.stop ts

theorem Token.InOrder.mono {P : Nat → Prop} {m n : Nat} {ts : List Token} (h : InOrder P n ts)
    (hmn : m ≤ n) : InOrder P m ts := by
  cases ts with
  | nil => trivial
  | cons t ts => exact ⟨hmn.trans h.1, h.2⟩

namespace Lexer

variable {c : Char} {s pre rest : List Char} {start len : Nat} {t : Tok} {r : Scan (List Token)}

theorem ne_eof_of_token (h : token start c s = .ok (t, len, rest)) : t ≠ .eof := by
  unfold token at h
  rintro rfl
  split_ifs at h
  · cases h
  · cases h
  · cases hb : stringBody start c 1 s <;> rw [hb] at h <;> cases h
  · split at h <;> cases h

theorem Scans.last (h : Scans pre s r) (ts : List Token) (hr : r = .ok ts) :
    ∃ us e, ts = us ++ [e] ∧ e.tok = .eof ∧ ∀ u ∈ us, u.tok ≠ .eof := by
  induction h generalizing ts with
  | done pre =>
    obtain rfl := Except.ok.inj hr
    exact ⟨[], _, rfl, rfl, nofun⟩
  | gap _ _ ih => exact ih ts hr
  | stop => cases hr
  | @take _ _ _ _ _ _ r taken _ _ _ ih =>
    cases r with
    | error e => cases hr
    | ok us =>
      obtain rfl := Except.ok.inj hr
      obtain ⟨us, e, rfl, he, hus⟩ := ih us rfl
      exact ⟨_ :: us, e, rfl, he, List.forall_mem_cons.mpr ⟨ne_eof_of_token taken, hus⟩⟩

theorem Scans.inOrder (h : Scans pre s r) (ts : List Token) (hr : r = .ok ts) :
    Token.InOrder (IsBoundary (pre ++ s)) (bytes pre) ts := by
  induction h generalizing ts with
  | done pre =>
    obtain rfl := Except.ok.inj hr
    have hend : IsBoundary (pre ++ []) (bytes pre) := ⟨pre, [], rfl, rfl⟩
    exact ⟨le_rfl, le_rfl, hend, hend, trivial⟩
  | @gap pre w s r _ _ ih =>
    have hts := ih ts hr
    rw [List.append_assoc] at hts
    refine hts.mono ?_
    rw [bytes_append]
    exact Nat.le_add_right _ _
  | stop => cases hr
  | @take pre s w rest c t r taken split _ _ ih =>
    cases r with
    | error e => cases hr
    | ok us =>
      obtain rfl := Except.ok.inj hr
      have hus := ih us rfl
      rw [List.append_assoc, ← split] at hus
      refine ⟨le_rfl, ?_, ⟨pre, c :: s, rfl, rfl⟩, ⟨pre ++ w, rest, ?_, rfl⟩, hus⟩
      · rw [bytes_append]
        exact Nat.le_add_right _ _
      · rw [List.append_assoc, ← split]

theorem last_tokens {source : String} {ts : List Token} (h : tokens source = .ok ts) :
    ∃ us e, ts = us ++ [e] ∧ e.tok = .eof ∧ ∀ u ∈ us, u.tok ≠ .eof :=
  (scans_tokens source).last ts h

theorem inOrder_tokens {source : String} {ts : List Token} (h : tokens source = .ok ts) :
    Token.InOrder (IsBoundary source.toList) 0 ts :=
  (scans_tokens source).inOrder ts h

end Lexer

/-! ## Trees in order -/

namespace Tree

/-- Shows nothing, as the name that an expression leaves out. -/
def isUnnamed : Tree → Bool
  | node l n _ => l.kind = .name && l.text = some "" && n = 0
  | _ => false

/-- The children that stand somewhere. -/
def placed (l : Label) (ts : List Tree) : List Tree :=
  ts.filter fun t => !(l.kind = .function && t.isUnnamed)

/-- Trees that stand one after the other between two bytes, and so all that is below them. -/
inductive Row (P : Nat → Prop) : Nat → Nat → List Tree → Prop
  | nil {p q : Nat} (le : p ≤ q) : Row P p q []
  | cons {p q start stop : Nat} {l : Label} {us ts : List Tree} (after : p ≤ start)
      (begins : l.start = some start) (ends : l.stop = some stop) (begin_place : P start)
      (end_place : P stop) (below : Row P start stop (placed l us)) (row : Row P stop q ts) :
      Row P p q (.of l us :: ts)

namespace Row

variable {P : Nat → Prop} {p p' q q' : Nat} {ts us : List Tree}

theorem le (h : Row P p q ts) : p ≤ q := by
  induction h with
  | nil le => exact le
  | cons after _ _ _ _ _ _ ihbelow ihrow => exact (after.trans ihbelow).trans ihrow

theorem mono (h : Row P p q ts) (hp : p' ≤ p) : Row P p' q ts := by
  cases h with
  | nil le => exact .nil (hp.trans le)
  | cons after begins ends hb he below row =>
      exact .cons (hp.trans after) begins ends hb he below row

theorem append (h : Row P p q ts) (hq : q ≤ q') (h' : Row P q' p' us) : Row P p p' (ts ++ us) := by
  induction h with
  | nil le => exact h'.mono (le.trans hq)
  | cons after begins ends hb he below _ _ ih => exact .cons after begins ends hb he below (ih hq)

theorem filter (h : Row P p q ts) (f : Tree → Bool) : Row P p q (ts.filter f) := by
  induction h with
  | nil le => exact .nil le
  | @cons p q start stop l us ts after begins ends hb he below row _ ih =>
    rw [List.filter_cons]
    split
    · exact .cons after begins ends hb he below ih
    · exact ih.mono (after.trans below.le)

end Row

end Tree

end ChainLowering
