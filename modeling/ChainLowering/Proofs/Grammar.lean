import Mathlib.Data.List.Forall2
import ChainLowering.Source.Lexer
import ChainLowering.Tree

/-!
# The grammar of trees

A production tells what a node shows and which parts its children are. The
trees of a part are those that its productions derive. What a node does not
show, its span, its type and where it comes from, plays no role.
-/

namespace ChainLowering

namespace Lexer

def isWord (s : String) : Bool :=
  match s.toList with
  | c :: cs => startsWord c && cs.all continuesWord
  | [] => false

def isIdentifier (s : String) : Bool := isWord s && !keywords.contains s

def isNumber (s : String) : Bool :=
  match s.toList with
  | c :: cs => startsNumber c cs && (c :: cs).all continuesNumber
  | [] => false

end Lexer

/-- The texts of words and numbers are words and numbers. -/
def Tok.Lexed : Tok → Prop
  | ident s => Lexer.isWord s = true
  | number s => Lexer.isNumber s = true
  | _ => True

/-- What a label shows. -/
def Label.bare (l : Label) : Label := { kind := l.kind, text := l.text, chainStart := l.chainStart }

namespace Kind

def isDeclaration : Kind → Bool
  | varDecl | letDecl | constDecl => true
  | _ => false

def isConstant : Kind → Bool
  | nullLit | trueLit | falseLit | this => true
  | _ => false

def isUnary : Kind → Bool
  | void | not => true
  | _ => false

def isBinary : Kind → Bool
  | comma | or | and | eq | ne | strictEq | strictNe => true
  | _ => false

end Kind

inductive Part
  | script | statement | block | function | parameters | name
  /-- The name that an expression leaves out. -/
  | unnamed
  | binding | entry | expression
  /-- What is assigned to. -/
  | target
  /-- An expression that is a link of a chain. -/
  | chain
  deriving DecidableEq

namespace Part

/-- What a link is put on. A link that is not marked goes on with a chain. -/
def receiver (k : Kind) (mark : Bool) : Part := if k.isChain && !mark then chain else expression

end Part

open Lexer in
inductive Rule : Part → Label → List Part → Prop
  | script (n : Nat) : Rule .script { kind := .script } (List.replicate n .statement)
  | block (n : Nat) : Rule .block { kind := .block } (List.replicate n .statement)
  | function : Rule .function { kind := .function } [.name, .parameters, .block]
  | parameters (n : Nat) : Rule .parameters { kind := .paramList } (List.replicate n .name)
  | name {w : String} (word : isIdentifier w = true) :
      Rule .name { kind := .name, text := some w } []
  | unnamed : Rule .unnamed { kind := .name, text := some "" } []
  -- statements
  | inner {l : Label} {ps : List Part} (rule : Rule .block l ps) : Rule .statement l ps
  | named {l : Label} {ps : List Part} (rule : Rule .function l ps) : Rule .statement l ps
  | empty : Rule .statement { kind := .empty } []
  | declaration {k : Kind} (n : Nat) (kind : k.isDeclaration = true) :
      Rule .statement { kind := k } (List.replicate (n + 1) .binding)
  | binding {w : String} (n : Nat) (word : isIdentifier w = true) (one : n ≤ 1) :
      Rule .binding { kind := .name, text := some w } (List.replicate n .expression)
  | returns (n : Nat) (one : n ≤ 1) : Rule .statement { kind := .returnStmt }
      (List.replicate n .expression)
  | chooses (n : Nat) (one : n ≤ 1) :
      Rule .statement { kind := .ifStmt } (.expression :: List.replicate (n + 1) .block)
  | evaluates : Rule .statement { kind := .exprStmt } [.expression]
  -- expressions
  | variable {l : Label} {ps : List Part} (rule : Rule .name l ps) : Rule .expression l ps
  | closure {l : Label} {ps : List Part} (rule : Rule .function l ps) : Rule .expression l ps
  | anonymous : Rule .expression { kind := .function } [.unnamed, .parameters, .block]
  | number {s : String} (number : isNumber s = true) :
      Rule .expression { kind := .numberLit, text := some s } []
  | string (s : String) : Rule .expression { kind := .stringLit, text := some s } []
  | constant {k : Kind} (kind : k.isConstant = true) : Rule .expression { kind := k } []
  | object (n : Nat) : Rule .expression { kind := .objectLit } (List.replicate n .entry)
  | entry (s : String) : Rule .entry { kind := .objectKey, text := some s } [.expression]
  | unary {k : Kind} (kind : k.isUnary = true) : Rule .expression { kind := k } [.expression]
  | binary {k : Kind} (kind : k.isBinary = true) : Rule .expression { kind := k }
      [.expression, .expression]
  | assign : Rule .expression { kind := .assign } [.target, .expression]
  | hook : Rule .expression { kind := .hook } [.expression, .expression, .expression]
  | property {k : Kind} {w : String} {mark : Bool} (kind : k = .getProp ∨ k = .chainProp)
      (marked : mark = true → k.isChain = true) (word : isWord w = true) :
      Rule .expression { kind := k, text := some w, chainStart := mark } [.receiver k mark]
  | element {k : Kind} {mark : Bool} (kind : k = .getElem ∨ k = .chainElem)
      (marked : mark = true → k.isChain = true) :
      Rule .expression { kind := k, chainStart := mark } [.receiver k mark, .expression]
  | call {k : Kind} {mark : Bool} (n : Nat) (kind : k = .call ∨ k = .chainCall)
      (marked : mark = true → k.isChain = true) :
      Rule .expression { kind := k, chainStart := mark }
        (.receiver k mark :: List.replicate n .expression)
  | target {l : Label} {ps : List Part} (rule : Rule .expression l ps)
      (kind : l.kind = .name ∨ l.kind.isGet = true) :
      Rule .target l ps
  | chain {l : Label} {ps : List Part} (rule : Rule .expression l ps)
      (kind : l.kind.isChain = true) : Rule .chain l ps

namespace Tree

def bare : Tree → Tree
  | node l n c => node l.bare n fun i => (c i).bare
  | t => t

inductive Is : Part → Tree → Prop
  | of {part : Part} {l : Label} {parts : List Part} {ts : List Tree}
      (rule : Rule part l.bare parts) (length : parts.length = ts.length)
      (children : ∀ q ∈ parts.zip ts, Is q.1 q.2) : Is part (.of l ts)

variable {part : Part} {l : Label} {parts : List Part} {t : Tree} {ts : List Tree}

theorem is_of (rule : Rule part l.bare parts) (children : List.Forall₂ Is parts ts) :
    Is part (.of l ts) := by
  obtain ⟨hlen, hzip⟩ := List.forall₂_iff_zip.mp children
  exact .of rule hlen fun q hq => hzip hq

theorem exists_part {R : Part → Tree → Prop} (h : List.Forall₂ R parts ts) (ht : t ∈ ts) :
    ∃ p ∈ parts, R p t := by
  induction h with
  | nil => cases ht
  | cons hp _ ih =>
    rcases List.mem_cons.mp ht with rfl | ht
    · exact ⟨_, List.mem_cons_self, hp⟩
    · obtain ⟨q, hq, hR⟩ := ih ht
      exact ⟨q, List.mem_cons_of_mem _ hq, hR⟩

@[elab_as_elim]
theorem Is.induct {motive : ∀ part t, Is part t → Prop}
    (of : ∀ {part l parts ts} (rule : Rule part l.bare parts) (children : List.Forall₂ Is parts ts),
      List.Forall₂ (fun p t => ∃ h : Is p t, motive p t h) parts ts →
      motive part (.of l ts) (is_of rule children))
    (h : Is part t) : motive part t h := by
  induction h with
  | of rule hlen children ih =>
    exact of rule (List.forall₂_iff_zip.mpr ⟨hlen, fun hq => children _ hq⟩)
      (List.forall₂_iff_zip.mpr ⟨hlen, fun hq => ⟨children _ hq, ih _ hq⟩⟩)

theorem of_inj {m : Label} {us : List Tree} (h : of l ts = of m us) : l = m ∧ ts = us := by
  have hts := congrArg children h
  rw [children_of, children_of] at hts
  exact ⟨(node.inj h).1, hts⟩

theorem Is.exists_rule (h : Is part (.of l ts)) :
    ∃ parts, Rule part l.bare parts ∧ List.Forall₂ Is parts ts := by
  generalize e : Tree.of l ts = t at h
  cases h with
  | of rule hlen children =>
    obtain ⟨rfl, rfl⟩ := of_inj e
    exact ⟨_, rule, List.forall₂_iff_zip.mpr ⟨hlen, fun hq => children _ hq⟩⟩

theorem forall₂_replicate {R : Part → Tree → Prop} {n : Nat} :
    List.Forall₂ R (List.replicate n part) ts ↔ ts.length = n ∧ ∀ t ∈ ts, R part t := by
  induction n generalizing ts with
  | zero => cases ts <;> simp
  | succ n ih =>
    cases ts with
    | nil => simp
    | cons t ts =>
      rw [List.replicate_succ, List.forall₂_cons, ih, List.length_cons, Nat.add_right_cancel_iff,
        List.forall_mem_cons]
      tauto

end Tree

end ChainLowering
