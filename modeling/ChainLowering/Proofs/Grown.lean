import Mathlib.Algebra.Order.Group.Multiset
import Mathlib.Data.Multiset.Range
import Mathlib.Tactic.Abel
import ChainLowering.Tree

/-!
# Trees as they stand in a store

A grown tree is a tree with the index of every node. What it puts into a
store, index by index, is a multiset of entries, so trees that stand side by
side are a sum, and an edit is a change of the few entries it touches. A
context is a tree with a hole, told from the hole upwards.
-/

namespace ChainLowering

inductive Grown
  | node (id : NodeId) (label : Label) (children : List Grown)

namespace Grown

def id : Grown → NodeId
  | node i _ _ => i

def label : Grown → Label
  | node _ l _ => l

def children : Grown → List Grown
  | node _ _ ts => ts

def slots (ts : List Grown) : List Ref := ts.map fun t => some t.id

@[simp] theorem id_node (i : NodeId) (l : Label) (ts : List Grown) : (node i l ts).id = i := rfl

@[simp] theorem label_node (i : NodeId) (l : Label) (ts : List Grown) :
    (node i l ts).label = l := rfl

@[simp] theorem children_node (i : NodeId) (l : Label) (ts : List Grown) :
    (node i l ts).children = ts := rfl

@[simp] theorem slots_nil : slots [] = [] := rfl

@[simp] theorem slots_cons (t : Grown) (ts : List Grown) :
    slots (t :: ts) = some t.id :: slots ts := rfl

@[simp] theorem slots_append (ts us : List Grown) : slots (ts ++ us) = slots ts ++ slots us :=
  List.map_append

theorem mem_slots {ts : List Grown} {r : Ref} : r ∈ slots ts ↔ ∃ t ∈ ts, some t.id = r :=
  List.mem_map

/-- Induction with a hypothesis for each child. -/
@[induction_eliminator]
theorem induct {P : Grown → Prop} (node : ∀ i l ts, (∀ t ∈ ts, P t) → P (node i l ts)) : ∀ t, P t :=
  @Grown.rec P (fun ts => ∀ t ∈ ts, P t) node (fun _ ht => nomatch ht)
    fun _ _ hu hus _ ht => by
      rcases List.mem_cons.mp ht with rfl | ht
      · exact hu
      · exact hus _ ht

/-! ## Without indices -/

mutual
def toTree : Grown → Tree
  | node _ l ts => .of l (toTrees ts)
def toTrees : List Grown → List Tree
  | [] => []
  | t :: ts => t.toTree :: toTrees ts
end

theorem toTrees_eq (ts : List Grown) : toTrees ts = ts.map toTree := by
  induction ts with
  | nil => rfl
  | cons t ts ih => rw [toTrees, ih]; rfl

theorem toTree_node (i : NodeId) (l : Label) (ts : List Grown) :
    (node i l ts).toTree = .of l (ts.map toTree) := by
  rw [toTree, toTrees_eq]

/-! ## Indices, each before those below it -/

mutual
def ids : Grown → List NodeId
  | node i _ ts => i :: idsAll ts
def idsAll : List Grown → List NodeId
  | [] => []
  | t :: ts => t.ids ++ idsAll ts
end

theorem idsAll_eq (ts : List Grown) : idsAll ts = ts.flatMap ids := by
  induction ts with
  | nil => rfl
  | cons t ts ih => rw [idsAll, ih]; rfl

@[simp] theorem ids_node (i : NodeId) (l : Label) (ts : List Grown) :
    (node i l ts).ids = i :: ts.flatMap ids := by
  rw [ids, idsAll_eq]

theorem id_mem_ids (t : Grown) : t.id ∈ t.ids := by
  cases t; simp

/-! ## Entries -/

/-- What a store has at an index. -/
abbrev Entries := Multiset (NodeId × Node)

mutual
/-- The entries of a tree whose root stands below `p`. -/
def entries (p : Ref) : Grown → Entries
  | node i l ts => (i, ⟨l, p, slots ts⟩) ::ₘ entriesAll (some i) ts
def entriesAll (p : Ref) : List Grown → Entries
  | [] => 0
  | t :: ts => t.entries p + entriesAll p ts
end

/-- The entries below the root, which do not say where the root stands. -/
def inner (t : Grown) : Entries := entriesAll (some t.id) t.children

@[simp] theorem entriesAll_nil (p : Ref) : entriesAll p [] = 0 := rfl

@[simp] theorem entriesAll_cons (p : Ref) (t : Grown) (ts : List Grown) :
    entriesAll p (t :: ts) = t.entries p + entriesAll p ts := rfl

@[simp] theorem entriesAll_append (p : Ref) (ts us : List Grown) :
    entriesAll p (ts ++ us) = entriesAll p ts + entriesAll p us := by
  induction ts with
  | nil => simp
  | cons t ts ih => rw [List.cons_append, entriesAll_cons, ih, entriesAll_cons, add_assoc]

theorem entriesAll_perm {ts us : List Grown} (h : ts.Perm us) (p : Ref) :
    entriesAll p ts = entriesAll p us := by
  induction h with
  | nil => rfl
  | cons t _ ih => rw [entriesAll_cons, entriesAll_cons, ih]
  | swap t u ts =>
    simp only [entriesAll_cons]
    abel
  | trans _ _ ih ih' => exact ih.trans ih'

theorem entries_node (p : Ref) (i : NodeId) (l : Label) (ts : List Grown) :
    (node i l ts).entries p = (i, ⟨l, p, slots ts⟩) ::ₘ entriesAll (some i) ts := rfl

theorem entries_eq (p : Ref) (t : Grown) :
    t.entries p = (t.id, ⟨t.label, p, slots t.children⟩) ::ₘ t.inner := by
  cases t; rfl

theorem mem_entriesAll {p : Ref} {ts : List Grown} {e : NodeId × Node} :
    e ∈ entriesAll p ts ↔ ∃ t ∈ ts, e ∈ t.entries p := by
  induction ts with
  | nil => simp
  | cons t ts ih => simp [ih]

theorem keys_entries (p : Ref) (t : Grown) :
    (t.entries p).map Prod.fst = (t.ids : Multiset NodeId) := by
  induction t generalizing p with
  | node i l ts ih =>
    have hts : ∀ us : List Grown,
      (∀ t ∈ us, ∀ p, (t.entries p).map Prod.fst = (t.ids : Multiset NodeId)) →
        ∀ q, (entriesAll q us).map Prod.fst = (us.flatMap ids : Multiset NodeId) := by
      intro us hus q
      induction us with
      | nil => rfl
      | cons u us ihu =>
        rw [entriesAll_cons, Multiset.map_add, hus u List.mem_cons_self q,
          ihu fun t ht => hus t (List.mem_cons_of_mem _ ht)]
        rfl
    rw [entries_node, Multiset.map_cons, hts ts (fun t ht p => ih t ht p)]
    simp

theorem keys_entriesAll (p : Ref) (ts : List Grown) :
    (entriesAll p ts).map Prod.fst = (ts.flatMap ids : Multiset NodeId) := by
  induction ts with
  | nil => rfl
  | cons t ts ih => rw [entriesAll_cons, Multiset.map_add, keys_entries, ih]; rfl

/-! ## Trees with a hole -/

/-- One level above the hole: a node with its children left and right. -/
structure Frame where
  id : NodeId
  label : Label
  left : List Grown := []
  right : List Grown := []

def Frame.fill (f : Frame) (t : Grown) : Grown := node f.id f.label (f.left ++ t :: f.right)

/-- The frames above a hole, the innermost first. -/
abbrev Context := List Frame

def plug : Context → Grown → Grown
  | [], t => t
  | f :: K, t => plug K (f.fill t)

def owner : Context → Ref
  | [] => none
  | f :: _ => some f.id

/-- What a context alone puts into a store, with the node `i` in its hole. -/
def contextEntries : Context → NodeId → Entries
  | [], _ => 0
  | f :: K, i =>
    (f.id, ⟨f.label, owner K, slots f.left ++ some i :: slots f.right⟩) ::ₘ
      (entriesAll (some f.id) f.left + entriesAll (some f.id) f.right + contextEntries K f.id)

@[simp] theorem Frame.id_fill (f : Frame) (t : Grown) : (f.fill t).id = f.id := rfl

@[simp] theorem plug_nil (t : Grown) : plug [] t = t := rfl

@[simp] theorem plug_cons (f : Frame) (K : Context) (t : Grown) :
    plug (f :: K) t = plug K (f.fill t) := rfl

theorem plug_append (K L : Context) (t : Grown) : plug (K ++ L) t = plug L (plug K t) := by
  induction K generalizing t with
  | nil => rfl
  | cons f K ih => exact ih _

@[simp] theorem owner_nil : owner [] = none := rfl

@[simp] theorem owner_cons (f : Frame) (K : Context) : owner (f :: K) = some f.id := rfl

theorem entries_fill (p : Ref) (f : Frame) (t : Grown) :
    (f.fill t).entries p = (f.id, ⟨f.label, p, slots f.left ++ some t.id :: slots f.right⟩) ::ₘ
      (entriesAll (some f.id) f.left + entriesAll (some f.id) f.right + t.entries (some f.id)) := by
  rw [Frame.fill, entries_node, entriesAll_append, entriesAll_cons, slots_append, slots_cons]
  congr 1
  abel

theorem entries_plug (K : Context) (t : Grown) :
    (plug K t).entries none = contextEntries K t.id + t.entries (owner K) := by
  induction K generalizing t with
  | nil => simp [contextEntries]
  | cons f K ih =>
    rw [plug_cons, ih, entries_fill, contextEntries, Frame.id_fill, owner_cons]
    simp only [Multiset.cons_add, Multiset.add_cons]
    rw [← add_assoc, add_comm (contextEntries K f.id)]

end Grown

end ChainLowering
