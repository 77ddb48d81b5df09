import ChainLowering.Proofs.Settings

/-!
# Lowering many chains at once

Chains are lowered one after the other, each in what the earlier ones left.
What comes of it can be told from the tree alone: a tree is peeled into the
tower of its chain, and the tower is closed where the chain ends. Only the
order of the declarations before a statement tells the order of the chains.
-/

namespace ChainLowering

namespace Grown

/-- The nodes and temporaries that are made for one chain. -/
structure Choice where
  glue : NodeId → Glue
  this : Temp
  dot : NodeId
  src : Label
  deriving Inhabited

/-- A temporary of the chain that ends at a node. It is pending as long as no statement declares it.
-/
structure Due where
  chain : NodeId
  temp : Temp
  pending : Bool := true

namespace Due

def all (c : NodeId) (xs : List Temp) : List Due := xs.map fun x => ⟨c, x, true⟩

def declared (d : Due) : Due := { d with pending := false }

/-- The temporaries of a chain that are pending. -/
def owed (ds : List Due) (c : NodeId) : List Temp :=
  (ds.filter fun d => d.pending && d.chain = c).map temp

end Due

/-- A tree with lowered chains, as a tower that may go on. -/
structure Peeled where
  dues : List Due := []
  base : Grown
  links : List Link := []

/-- A tree with lowered chains that does not go on. -/
structure Closed where
  dues : List Due
  tree : Grown

def Peeled.tree (p : Peeled) : Grown := tower p.base p.links

/-- Declarations before a statement, chain by chain. -/
def Closed.statement (order : List NodeId) (s : Closed) : List Grown :=
  (order.flatMap (Due.owed s.dues)).map Temp.declaration ++ [s.tree]

section
variable (order : List NodeId) (choice : NodeId → Choice)

namespace Peeled

/-- The chain that ends here is to be lowered. -/
def isDue (p : Peeled) : Bool := !p.links.isEmpty && order.contains p.tree.id

def lowering (p : Peeled) : Lowering := lower (choice p.tree.id).glue p.base p.links

def close (p : Peeled) : Closed :=
  if p.isDue order then ⟨p.dues ++ Due.all p.tree.id (p.lowering choice).temps,
    (p.lowering choice).close⟩
  else ⟨p.dues, p.tree⟩

/-- The node above a tree that does not go on. -/
def under (f : Frame) (p : Peeled) : Closed :=
  if p.isDue order then
    let r := choice p.tree.id
    ⟨p.dues ++ Due.all p.tree.id ((p.lowering choice).declared r.this f),
      (p.lowering choice).placed r.this r.dot r.src f⟩
  else ⟨p.dues, f.fill p.tree⟩

/-- A node above trees that are peeled. -/
def assemble (i : NodeId) (l : Label) : List Peeled → Peeled
  | [] => { base := node i l [] }
  | p :: ps =>
    let rest := ps.map (close order choice)
    if l.kind.isChain then
      { dues := p.dues ++ rest.flatMap Closed.dues, base := p.base,
        links := p.links ++ [⟨i, l, rest.map Closed.tree⟩] }
    else if l.kind.ownsStatements then
      let all := p.close order choice :: rest
      { dues := (all.flatMap Closed.dues).map Due.declared,
        base := node i l (all.flatMap (Closed.statement order)) }
    else
      let c := p.under order choice ⟨i, l, [], rest.map Closed.tree⟩
      { dues := c.dues ++ rest.flatMap Closed.dues, base := c.tree }

end Peeled

mutual
/-- Lowers the chains that end below the root at nodes of `order`. -/
def peel : Grown → Peeled
  | node i l ts => .assemble order choice i l (peelAll ts)
def peelAll : List Grown → List Peeled
  | [] => []
  | t :: ts => peel t :: peelAll ts
end

def whole (t : Grown) : Closed := (peel order choice t).close order choice

end

variable {order : List NodeId} {choice : NodeId → Choice} {i : NodeId} {l : Label} {t x e : Grown}
    {ts : List Grown}
  {k : Link} {ks : List Link} {d : Lowering}

theorem peelAll_eq (ts : List Grown) : peelAll order choice ts = ts.map (peel order choice) := by
  induction ts with
  | nil => rfl
  | cons t ts ih => rw [peelAll, ih]; rfl

theorem peel_leaf (i : NodeId) (l : Label) :
    peel order choice (node i l []) = { base := node i l [] } := rfl

theorem peel_cons (i : NodeId) (l : Label) (t : Grown) (ts : List Grown) :
    peel order choice (node i l (t :: ts)) =
      .assemble order choice i l (peel order choice t :: ts.map (peel order choice)) := by
  rw [peel, peelAll, peelAll_eq]

theorem close_map (ts : List Grown) :
    (ts.map (peel order choice)).map (Peeled.close order choice) = ts.map (whole order choice) := by
  rw [List.map_map]; rfl

theorem peel_chain (i : NodeId) (t : Grown) (ts : List Grown) (hl : l.kind.isChain = true) :
    peel order choice (node i l (t :: ts)) =
      { dues := (peel order choice t).dues ++ ts.flatMap fun u => (whole order choice u).dues
        base := (peel order choice t).base
        links := (peel order choice t).links ++
          [⟨i, l, ts.map fun u => (whole order choice u).tree⟩] } := by
  rw [peel_cons, Peeled.assemble, close_map]
  simp [hl, List.flatMap_map, Function.comp_def]

theorem peel_owner (i : NodeId) (ts : List Grown) (hl : l.kind.ownsStatements = true) :
    peel order choice (node i l ts) =
      { dues := (ts.flatMap fun u => (whole order choice u).dues).map Due.declared
        base := node i l (ts.flatMap fun u => (whole order choice u).statement order) } := by
  cases ts with
  | nil => rfl
  | cons t ts =>
    rw [peel_cons, Peeled.assemble, close_map]
    simp [not_isChain_of_ownsStatements hl, hl, List.flatMap_map, whole]

theorem peel_under (i : NodeId) (t : Grown) (ts : List Grown) (hl : l.kind.isChain = false)
    (ho : l.kind.ownsStatements = false) :
    peel order choice (node i l (t :: ts)) =
      let c := (peel order choice t).under order choice ⟨i, l, [], ts.map fun u =>
        (whole order choice u).tree⟩
      { dues := c.dues ++ ts.flatMap fun u => (whole order choice u).dues, base := c.tree } := by
  rw [peel_cons, Peeled.assemble, close_map]
  simp [hl, ho, List.flatMap_map, Function.comp_def]

/-! ## The shape of what is peeled -/

theorem Peeled.exists_under (f : Frame) (p : Peeled) :
    ∃ us, (p.under order choice f).tree = node f.id f.label us := by
  rw [Peeled.under]
  split_ifs
  · exact exists_placed ..
  · exact ⟨_, rfl⟩

/-- No link that goes on with a tree. -/
def Bottom (t : Grown) : Prop := t.label.kind.isChain = true → t.children = []

theorem bottom_of (h : t.label.kind.isChain = false) : Bottom t :=
  fun h' => absurd (h.symm.trans h') Bool.noConfusion

theorem bottom_node (hl : l.kind.isChain = false) : Bottom (node i l ts) := bottom_of hl

variable (order choice) in
theorem exists_peel (h : Bottom t) :
    ∃ us, (peel order choice t).links = [] ∧ (peel order choice t).base = node t.id t.label us := by
  obtain ⟨i, l, _ | ⟨t, ts⟩⟩ := t
  · exact ⟨_, rfl, rfl⟩
  · have hl : l.kind.isChain = false := by
      by_contra hl
      exact List.cons_ne_nil _ _ (h (by simpa using hl))
    by_cases ho : l.kind.ownsStatements = true
    · rw [peel_owner i _ ho]
      exact ⟨_, rfl, rfl⟩
    · rw [peel_under i t ts hl (by simpa using ho)]
      exact (Peeled.exists_under _ _).imp fun us hus => ⟨rfl, hus⟩

variable (order choice) in
theorem links_peel (h : Bottom t) : (peel order choice t).links = [] := by
  obtain ⟨_, hl, -⟩ := exists_peel order choice h
  exact hl

theorem close_of_links_nil {p : Peeled} (h : p.links = []) :
    p.close order choice = ⟨p.dues, p.base⟩ := by
  rw [Peeled.close, if_neg (by simp [Peeled.isDue, h]), Peeled.tree, h]
  rfl

variable (order choice) in
theorem whole_eq (h : Bottom t) :
    whole order choice t = ⟨(peel order choice t).dues, (peel order choice t).base⟩ :=
  close_of_links_nil (links_peel _ _ h)

variable (order choice) in
theorem exists_whole (h : Bottom t) : ∃ us, (whole order choice t).tree = node t.id t.label us := by
  rw [whole_eq _ _ h]
  exact (exists_peel _ _ h).imp fun us hus => hus.2

variable (order choice) in
theorem label_whole (h : Bottom t) : (whole order choice t).tree.label = t.label := by
  obtain ⟨us, e⟩ := exists_whole order choice h
  rw [e]
  rfl

theorem linked_peel (t : Grown) : Linked (peel order choice t).links := by
  induction t with
  | node i l ts ih =>
    by_cases hl : l.kind.isChain = true
    · cases ts with
      | nil => exact fun _ h => nomatch h
      | cons t ts =>
        rw [peel_chain i t ts hl]
        intro k hk
        rcases List.mem_append.mp hk with hk | hk
        · exact ih t List.mem_cons_self k hk
        · rw [List.mem_singleton.mp hk]; exact hl
    · rw [links_peel _ _ (bottom_of (by simpa using hl))]
      exact fun _ h => nomatch h

variable (order choice) in
theorem bottom_peel (t : Grown) : Bottom (peel order choice t).base := by
  induction t with
  | node i l ts ih =>
    by_cases hl : l.kind.isChain = true
    · cases ts with
      | nil => exact fun _ => rfl
      | cons t ts => rw [peel_chain i t ts hl]; exact ih t List.mem_cons_self
    · obtain ⟨us, -, e⟩ :=
        exists_peel order choice (t := node i l ts) (bottom_of (by simpa using hl))
      rw [e]
      exact fun h => absurd h hl

theorem id_peel (t : Grown) : (peel order choice t).tree.id = t.id := by
  by_cases hl : t.label.kind.isChain = true
  · obtain ⟨i, l, _ | ⟨t, ts⟩⟩ := t
    · rfl
    · rw [label_node] at hl
      rw [peel_chain i t ts hl, Peeled.tree, tower_snoc]; rfl
  · obtain ⟨us, h, e⟩ := exists_peel order choice (bottom_of (by simpa using hl))
    rw [Peeled.tree, h, e]
    rfl

section
variable (order choice)

/-- The other children of a link with their chains lowered. -/
def Link.whole (k : Link) : Link :=
  { k with args := k.args.map fun u => (Grown.whole order choice u).tree }

/-- The temporaries of chains in trees side by side. -/
def duesAll (ts : List Grown) : List Due := ts.flatMap fun u => (whole order choice u).dues

end

theorem peel_tower (hx : Bottom x) (hk : Linked ks) : peel order choice (tower x ks) =
    ⟨(peel order choice x).dues ++ ks.flatMap fun k => duesAll order choice k.args,
      (peel order choice x).base, ks.map (Link.whole order choice)⟩ := by
  induction ks using List.reverseRecOn with
  | nil =>
    rw [tower_nil, List.map_nil, List.flatMap_nil, List.append_nil, ← links_peel order choice hx]
  | append_singleton ks k ih =>
    rw [tower_snoc, peel_chain k.id _ k.args (hk k (by simp)),
      ih fun j hj => hk j (List.mem_append_left _ hj)]
    simp [List.flatMap_append, duesAll, Link.whole]

theorem whole_owner (i : NodeId) (ts : List Grown) (hl : l.kind.ownsStatements = true) :
    whole order choice (node i l ts) = ⟨(duesAll order choice ts).map Due.declared,
      node i l (ts.flatMap fun u => (whole order choice u).statement order)⟩ := by
  rw [whole_eq _ _ (bottom_node (not_isChain_of_ownsStatements hl)), peel_owner i ts hl]
  rfl

theorem whole_under (i : NodeId) (t : Grown) (ts : List Grown) (hl : l.kind.isChain = false)
    (ho : l.kind.ownsStatements = false) : whole order choice (node i l (t :: ts)) =
      let c := (peel order choice t).under order choice ⟨i, l, [], ts.map fun u =>
        (whole order choice u).tree⟩
      ⟨c.dues ++ duesAll order choice ts, c.tree⟩ := by
  rw [whole_eq _ _ (bottom_node hl), peel_under i t ts hl ho]
  rfl

/-! ## Trees in which no chain ends at the root of a child -/

/-- No child is a chain that is called here, and no statement stands here. -/
structure Calm (l : Label) (ts : List Grown) : Prop where
  chain : l.kind.isChain = false
  owner : l.kind.ownsStatements = false
  callee : l.kind = .call → ∀ t ∈ ts.head?, Bottom t

theorem Calm.of_ne (hc : l.kind.isChain = false) (ho : l.kind.ownsStatements = false)
    (h : l.kind ≠ .call) : Calm l ts :=
  ⟨hc, ho, fun hk => absurd hk h⟩

theorem Peeled.under_close {p : Peeled} {f : Frame} (h : f.label.kind = .call → p.links = []) :
    p.under order choice f = ⟨(p.close order choice).dues, f.fill (p.close order choice).tree⟩ := by
  rw [Peeled.under, Peeled.close]
  split_ifs with hd
  · have hf : f.label.kind ≠ .call := by
      intro hf
      simp [isDue, h hf] at hd
    have hcalled : (p.lowering choice).isCalled f = false := by simp [Lowering.isCalled, hf]
    simp [Lowering.declared, Lowering.placed, hcalled]
  · rfl

theorem whole_calm (h : Calm l ts) : whole order choice (node i l ts) =
    ⟨duesAll order choice ts, node i l (ts.map fun u => (whole order choice u).tree)⟩ := by
  rw [whole_eq _ _ (bottom_node h.chain)]
  cases ts with
  | nil => rfl
  | cons t ts =>
    have hu : l.kind = .call → (peel order choice t).links = [] :=
      fun hk => links_peel _ _ (h.callee hk t rfl)
    rw [peel_under i t ts h.chain h.owner, Peeled.under_close hu]
    rfl

@[simp] theorem whole_leaf (i : NodeId) (l : Label) :
    whole order choice (node i l []) = ⟨[], node i l []⟩ :=
  close_of_links_nil rfl

@[simp] theorem whole_use (u : Temp) : whole order choice u.use = ⟨[], u.use⟩ := rfl

@[simp] theorem whole_declaration (u : Temp) :
    whole order choice u.declaration = ⟨[], u.declaration⟩ := rfl

@[simp] theorem whole_keep (u : Temp) (e : Grown) :
    whole order choice (u.keep e) = ⟨(whole order choice e).dues,
      u.keep (whole order choice e).tree⟩ := by
  rw [Temp.keep, whole_calm (.of_ne rfl rfl Kind.noConfusion)]
  simp [duesAll, whole, peel_leaf, Peeled.close, Peeled.isDue, Peeled.tree, Temp.keep]

theorem whole_get {o : Grown} (hl : l.kind.isGet = true) : whole order choice (node i l (o :: ts)) =
    ⟨(whole order choice o).dues ++ duesAll order choice ts,
      node i l ((whole order choice o).tree :: ts.map fun u => (whole order choice u).tree)⟩ := by
  rw [whole_calm]
  · rfl
  · refine .of_ne (not_isChain_of_isGet hl) ?_ ?_
    · revert hl; cases l.kind <;> decide
    · intro h
      rw [h] at hl
      cases hl

theorem whole_plain (hl : l.kind.isChain = true) (ht : Bottom t) :
    whole order choice (node i l.plain (t :: ts)) =
      ⟨(whole order choice t).dues ++ duesAll order choice ts,
      node i l.plain
        ((whole order choice t).tree :: ts.map fun u => (whole order choice u).tree)⟩ := by
  rw [whole_calm]
  · rfl
  · refine ⟨isChain_plain l, ?_, fun _ u hu => by rwa [← Option.some.inj hu]⟩
    have := isLink_plain hl
    revert this
    cases l.plain.kind <;> decide

/-! ## Lowering and what is around it -/

section
variable (order choice)

def Guard.whole (g : Guard) : Guard :=
  { g with receiver := (Grown.whole order choice g.receiver).tree }

namespace Lowering

def whole (d : Lowering) : Lowering :=
  ⟨d.temps, d.guards.map (Guard.whole order choice), (Grown.whole order choice d.rest).tree⟩

def dues (d : Lowering) : List Due :=
  duesAll order choice (d.guards.map Guard.receiver) ++ (Grown.whole order choice d.rest).dues

end Lowering

end

theorem duesAll_append (ts us : List Grown) :
    duesAll order choice (ts ++ us) = duesAll order choice ts ++ duesAll order choice us :=
  List.flatMap_append

variable (order choice) in
theorem whole_split (v : Saved) (hk : k.label.kind.isChain = true) (he : Bottom e) :
    split v (k.whole order choice) (whole order choice e).tree =
        ⟨(split v k e).temps, (whole order choice (split v k e).receiver).tree,
          (whole order choice (split v k e).rest).tree⟩ ∧
      (whole order choice (split v k e).receiver).dues ++
      (whole order choice (split v k e).rest).dues =
        (whole order choice e).dues ++ duesAll order choice k.args := by
  cases hc : (e.label.kind.isGet && decide (k.label.plain.kind = .call)) with
  | false =>
    have hc' := hc
    rw [← label_whole order choice he] at hc'
    rw [split_of_other hc, split_of_other (k := k.whole order choice) hc',
      whole_plain hk (bottom_of rfl)]
    simp [Link.whole]
  | true =>
    obtain ⟨hg, hp⟩ := Bool.and_eq_true_iff.mp hc
    obtain ⟨j, m, _ | ⟨o, keys⟩⟩ := e
    · simp only [split, whole_keep, whole_leaf]
      rw [whole_plain hk (bottom_of rfl)]
      simp [Link.whole]
    · rw [label_node] at hg
      rw [split_of_get o keys hg (of_decide_eq_true hp), whole_get hg,
        split_of_get (k := k.whole order choice) _ _ hg (of_decide_eq_true hp), whole_keep,
        whole_get hg, whole_keep, whole_plain hk (bottom_of rfl),
        whole_calm (.of_ne rfl rfl Kind.noConfusion)]
      simp [Link.whole, duesAll]

namespace Lowering

variable (order choice) in
theorem whole_step (glue : NodeId → Glue) (hk : k.label.kind.isChain = true) (hd : Bottom d.rest) :
    step glue (d.whole order choice) (k.whole order choice) = (step glue d k).whole order choice ∧
      (step glue d k).dues order choice = d.dues order choice ++ duesAll order choice k.args := by
  have hlabel : (k.whole order choice).label = k.label := rfl
  rw [step, step, hlabel]
  split_ifs with hm
  · obtain ⟨hs, hdues⟩ := whole_split order choice (glue k.id).saved hk hd
    have hcut : cut (glue k.id) (k.whole order choice) (d.whole order choice) =
        (cut (glue k.id) k d).whole order choice := by
      simp only [cut, whole]
      rw [hs]
      simp only [List.map_append]
      rfl
    refine ⟨hcut, ?_⟩
    simp only [cut, dues, List.map_append, duesAll_append, List.append_assoc, ← hdues]
    simp [duesAll]
  · simp only [whole, dues, whole_plain hk hd, List.append_assoc]
    exact ⟨rfl, trivial⟩

theorem bottom_step (glue : NodeId → Glue) (k : Link) (d : Lowering) :
    Bottom (step glue d k).rest := by
  rw [step]
  split_ifs
  · exact bottom_of (receivable_split ..).1
  · exact bottom_of (receivable_link ..).1

theorem bottom_foldl_step (glue : NodeId → Glue) (ks : List Link) (hd : Bottom d.rest) :
    Bottom (ks.foldl (step glue) d).rest := by
  induction ks generalizing d with
  | nil => exact hd
  | cons k ks ih => exact ih (bottom_step glue k d)

variable (order choice) in
theorem whole_foldl_step (glue : NodeId → Glue) (hk : Linked ks) (hd : Bottom d.rest) :
    (ks.map (Link.whole order choice)).foldl (step glue) (d.whole order choice) =
      (ks.foldl (step glue) d).whole order choice ∧
      (ks.foldl (step glue) d).dues order choice = d.dues order choice ++ ks.flatMap fun k =>
      duesAll order choice k.args := by
  induction ks generalizing d with
  | nil => simp
  | cons k ks ih =>
    obtain ⟨h, hdues⟩ := whole_step order choice glue (hk k List.mem_cons_self) hd
    obtain ⟨ih, ihdues⟩ := ih (d := step glue d k) (fun j hj => hk j (List.mem_cons_of_mem _ hj))
      (bottom_step glue k d)
    rw [List.map_cons, List.foldl_cons, List.foldl_cons, h, ih, ihdues, hdues, List.flatMap_cons,
      List.append_assoc]
    exact ⟨rfl, rfl⟩

variable (order choice) in
/-- A tower is lowered with the chains in it, before them or after them. -/
theorem lower_peel (glue : NodeId → Glue) (hx : Bottom x) (hk : Linked ks) :
    lower glue (peel order choice (tower x ks)).base (peel order choice (tower x ks)).links =
        (lower glue x ks).whole order choice ∧
      (lower glue x ks).dues order choice = (peel order choice (tower x ks)).dues := by
  obtain ⟨h, hdues⟩ := whole_foldl_step order choice glue hk (d := { rest := x }) hx
  rw [peel_tower hx hk]
  simp only [whole, whole_eq _ _ hx, List.map_nil] at h
  simp only [dues, duesAll, whole_eq _ _ hx] at hdues
  exact ⟨h, hdues⟩

theorem bottom_close (hd : Bottom d.rest) : Bottom d.close := by
  cases hg : d.guards with
  | nil => rw [close, hg]; exact hd
  | cons g gs =>
      rw [close, hg, List.reverse_cons, List.map_append, plug_append]; exact bottom_of rfl

theorem close_cons (xs : List Temp) (g : Guard) (gs : List Guard) (e : Grown) :
    close ⟨xs, g :: gs, e⟩ = g.frame.fill (close ⟨xs, gs, e⟩) := by
  simp only [close, List.reverse_cons, List.map_append, plug_append]
  rfl

variable (order choice) in
theorem whole_close (hd : Bottom d.rest) :
    Grown.whole order choice d.close = ⟨d.dues order choice, (d.whole order choice).close⟩ := by
  obtain ⟨xs, gs, e⟩ := d
  induction gs with
  | nil => rfl
  | cons g gs ih =>
    have hfill : ∀ t, Grown.whole order choice (g.frame.fill t) =
        ⟨(Grown.whole order choice g.receiver).dues ++ (Grown.whole order choice t).dues,
          (g.whole order choice).frame.fill (Grown.whole order choice t).tree⟩ := by
      intro t
      have htest : Grown.whole order choice g.test = ⟨(Grown.whole order choice g.receiver).dues,
          (g.whole order choice).test⟩ := by
        rw [Guard.test, whole_calm (.of_ne rfl rfl Kind.noConfusion)]
        simp [duesAll, Guard.test, Guard.whole]
      have hundefined : Grown.whole order choice g.undefined = ⟨[], g.undefined⟩ := by
        rw [Guard.undefined, whole_calm (.of_ne rfl rfl Kind.noConfusion)]
        simp [duesAll]
      rw [Frame.fill, whole_calm (.of_ne rfl rfl Kind.noConfusion)]
      simp only [Guard.frame, duesAll, List.cons_append, List.nil_append, List.flatMap_cons,
        List.flatMap_nil, List.map_cons, List.map_nil, htest, hundefined, List.append_nil]
      rfl
    rw [close_cons, hfill, ih hd]
    simp [dues, whole, duesAll, close_cons]

variable (order choice) in
theorem isCalled_whole (f : Frame) (args : List Grown) (hd : Bottom d.rest) :
    (d.whole order choice).isCalled { f with right := args } = d.isCalled f := by
  simp only [isCalled, whole, label_whole _ _ hd]

variable (order choice) in
theorem declared_whole (u : Temp) (f : Frame) (args : List Grown) (hd : Bottom d.rest) :
    (d.whole order choice).declared u { f with right := args } = d.declared u f := by
  simp only [declared, isCalled_whole _ _ f args hd]
  rfl

theorem whole_called (u : Temp) (dot : NodeId) (src : Label) (i : NodeId) {l : Label}
    (args : List Grown) (hl : l.kind = .call) (hd : d.rest.label.kind.isGet = true) :
    Grown.whole order choice (d.called u dot src i l args) =
      ⟨d.dues order choice ++ duesAll order choice args,
      (d.whole order choice).called u dot src i l
        (args.map fun t => (Grown.whole order choice t).tree)⟩ := by
  have hcall : ∀ {t ts}, Bottom t → Calm l (t :: ts) := by
    intro t ts ht
    refine ⟨by rw [hl]; rfl, by rw [hl]; rfl, fun _ u hu => by rwa [← Option.some.inj hu]⟩
  have hc := bottom_of (not_isChain_of_isGet hd)
  obtain ⟨xs, gs, ⟨j, m, _ | ⟨o, keys⟩⟩⟩ := d
  · rw [called, whole_calm (hcall (bottom_close hc))]
    simp [duesAll, whole_close _ _ hc, called, whole]
  · rw [label_node] at hd
    rw [called, whole_calm (hcall (bottom_of rfl))]
    have hrest := whole_close order choice (d := ⟨xs, gs, node j m (u.keep o :: keys)⟩)
      (bottom_of (not_isChain_of_isGet hd))
    simp only [dues, whole] at hrest
    rw [whole_get hd, whole_keep] at hrest
    simp only [duesAll, List.map_cons, List.flatMap_cons, whole_use, List.nil_append, dues, whole,
      whole_get hd, called]
    rw [whole_calm (.of_ne rfl rfl Kind.noConfusion)]
    simp only [duesAll, List.map_cons, List.flatMap_cons, hrest]
    simp

theorem whole_placed (u : Temp) (dot : NodeId) (src : Label) (i : NodeId) {l : Label}
    (args : List Grown) (hl : l.kind.isChain = false) (ho : l.kind.ownsStatements = false)
    (hd : Bottom d.rest) :
    Grown.whole order choice (d.placed u dot src ⟨i, l, [], args⟩) =
      ⟨d.dues order choice ++ duesAll order choice args,
      (d.whole order choice).placed u dot src
        ⟨i, l, [], args.map fun t => (Grown.whole order choice t).tree⟩⟩ := by
  have hcalled := isCalled_whole order choice ⟨i, l, [], args⟩
    (args.map fun t => (Grown.whole order choice t).tree) hd
  rw [placed, placed, hcalled]
  split_ifs with h
  · simp only [isCalled, Bool.and_eq_true, decide_eq_true_eq] at h
    exact whole_called u dot src i args h.1.1 h.2
  · rw [Frame.fill, List.nil_append,
      whole_calm ⟨hl, ho, fun _ t ht => by rw [← Option.some.inj ht]; exact bottom_close hd⟩]
    simp [duesAll, whole_close _ _ hd, Frame.fill]

end Lowering

end Grown

end ChainLowering
