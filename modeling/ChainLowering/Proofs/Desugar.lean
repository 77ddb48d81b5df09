import ChainLowering.Proofs.Grown

/-!
# What lowering makes of a chain

The reference for lowering one chain, on trees. A chain is a tower of links
on a tree that is no link. Every marked link cuts the tower: what stands
below it is kept in a temporary and becomes the receiver of a guard, and the
tower goes on from the temporary. At last the guards are closed around what
is left.
-/

namespace ChainLowering

/-- A node made by a transform, with the span and type of another. -/
def Label.made (kind : Kind) (text : Option String) (src : Label) : Label :=
  { kind := kind, text := text, start := src.start, stop := src.stop, type := src.type,
    synthesized := true }

/-- A link of a chain as it is when its chain is lowered. -/
def Label.plain (l : Label) : Label :=
  { l with chainStart := false, kind := l.kind.plain?.getD l.kind }

instance : Inhabited Label := ⟨{ kind := .empty }⟩

namespace Grown

/-- A temporary, with the nodes that are made for it. -/
structure Temp where
  name : String
  /-- The node whose span and type they have. -/
  src : Label
  binding : NodeId
  declared : NodeId
  target : NodeId
  assigned : NodeId
  used : NodeId
  deriving Inhabited

namespace Temp

/-- `let t;` -/
def declaration (x : Temp) : Grown :=
  node x.declared (.made .letDecl none x.src) [node x.binding (.made .name (some x.name) x.src) []]

/-- `t = e` -/
def keep (x : Temp) (e : Grown) : Grown :=
  node x.assigned (.made .assign none x.src) [node x.target (.made .name (some x.name) x.src) [], e]

/-- `t` -/
def use (x : Temp) : Grown := node x.used (.made .name (some x.name) x.src) []

end Temp

/-- The temporaries of a segment. -/
structure Saved where
  value : Temp
  /-- Only for a call through an optional member. -/
  this : Temp
  dot : NodeId
  deriving Inhabited

/-- The other nodes that are made for a segment. -/
structure Glue where
  saved : Saved
  /-- The node whose span and type they have. -/
  src : Label
  null : NodeId
  eq : NodeId
  zero : NodeId
  undefined : NodeId
  hook : NodeId
  deriving Inhabited

/-- The guard of a segment with the receiver that it keeps. -/
structure Guard where
  glue : Glue
  receiver : Grown

namespace Guard

/-- `receiver == null` -/
def test (g : Guard) : Grown :=
  node g.glue.eq (.made .eq none g.glue.src)
    [g.receiver, node g.glue.null (.made .nullLit none g.glue.src) []]

/-- `void 0` -/
def undefined (g : Guard) : Grown :=
  node g.glue.undefined (.made .void none g.glue.src)
    [node g.glue.zero (.made .numberLit (some "0") g.glue.src) []]

/-- `receiver == null ? void 0 : …` -/
def frame (g : Guard) : Frame :=
  ⟨g.glue.hook, .made .hook none g.glue.src, [g.test, g.undefined], []⟩

end Guard

/-- A link with all its children but the first. -/
structure Link where
  id : NodeId
  label : Label
  args : List Grown

def Link.frame (k : Link) : Frame := ⟨k.id, k.label, [], k.args⟩

/-- A tree with links on it, told from below. -/
def tower (x : Grown) (ks : List Link) : Grown := plug (ks.map Link.frame) x

/-- A tower that was cut: what is kept, and the link on what the temporaries hold. -/
structure Split where
  /-- In the order in which they are declared. -/
  temps : List Temp
  receiver : Grown
  rest : Grown

/-- Cuts the tower below a link. A call of a member keeps the object that has
the member as well:

    o.m?.(x)        (t = (u = o).m) == null ? void 0 : t.call(u, x) -/
def split (v : Saved) (k : Link) : Grown → Split
  | node j m (o :: keys) =>
    if m.kind.isGet && k.label.plain.kind = .call then
      ⟨[v.this, v.value], v.value.keep (node j m (v.this.keep o :: keys)),
        node k.id k.label.plain
          (node v.dot (.made .getProp (some "call") v.value.src) [v.value.use] ::
            v.this.use :: k.args)⟩
    else ⟨[v.value], v.value.keep (node j m (o :: keys)),
      node k.id k.label.plain (v.value.use :: k.args)⟩
  | e => ⟨[v.value], v.value.keep e, node k.id k.label.plain (v.value.use :: k.args)⟩

/-- A chain that is being lowered. -/
structure Lowering where
  /-- In the order in which they are declared. -/
  temps : List Temp := []
  /-- The outermost first. -/
  guards : List Guard := []
  rest : Grown

namespace Lowering

/-- The guards closed around the rest. -/
def close (d : Lowering) : Grown := plug (d.guards.reverse.map Guard.frame) d.rest

def cut (g : Glue) (k : Link) (d : Lowering) : Lowering :=
  let s := split g.saved k d.rest
  ⟨d.temps ++ s.temps, d.guards ++ [⟨g, s.receiver⟩], s.rest⟩

/-- The next link, where `glue` tells what is made for a marked one. -/
def step (glue : NodeId → Glue) (d : Lowering) (k : Link) : Lowering :=
  if k.label.chainStart then d.cut (glue k.id) k
  else { d with rest := node k.id k.label.plain (d.rest :: k.args) }

end Lowering

/-- Lowers all links of a tower. -/
def lower (glue : NodeId → Glue) (x : Grown) (ks : List Link) : Lowering :=
  ks.foldl (Lowering.step glue) { rest := x }

/-- What becomes of a plain call of a chain that ends in an access: the object
of the access is kept and passed on.

    (… : o.m)(x)        (… : (u = o).m).call(u, x) -/
def Lowering.called (d : Lowering) (u : Temp) (dot : NodeId) (src : Label) (i : NodeId) (l : Label)
    (args : List Grown) : Grown :=
  match d.rest with
  | node j m (o :: keys) =>
    node i l (node dot (.made .getProp (some "call") src)
      [Lowering.close { d with rest := node j m (u.keep o :: keys) }] :: u.use :: args)
  | _ => node i l (d.close :: args)

/-- The chain is the callee of a plain call and ends in an access. -/
def Lowering.isCalled (d : Lowering) (f : Frame) : Bool :=
  f.label.kind = .call && f.left.isEmpty && d.rest.label.kind.isGet

/-- What becomes of the node above the chain. -/
def Lowering.placed (d : Lowering) (u : Temp) (dot : NodeId) (src : Label) (f : Frame) : Grown :=
  if d.isCalled f then d.called u dot src f.id f.label f.right else f.fill d.close

/-- All temporaries of a chain, in the order in which they are declared. -/
def Lowering.declared (d : Lowering) (u : Temp) (f : Frame) : List Temp :=
  if d.isCalled f then d.temps ++ [u] else d.temps

/-- Declarations at the end of the statements to the left of a hole. -/
def Frame.declaring (f : Frame) (xs : List Temp) : Frame :=
  { f with left := f.left ++ xs.map Temp.declaration }

/-- What is left of a place where a tree stood while another was built around it. -/
def placeholder (i : NodeId) : Grown := node i { kind := .empty, synthesized := true } []

end Grown

end ChainLowering
