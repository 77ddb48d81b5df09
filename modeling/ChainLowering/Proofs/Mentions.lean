import ChainLowering.Proofs.Fresh
import ChainLowering.Proofs.Lodging

/-!
# How often names stand in lowered trees

To lower a chain leaves all names in the tree and adds each of its temporaries
three times, where it is declared, where it is kept and where it is read.
-/

namespace ChainLowering

namespace Grown

variable {s : String} {i : NodeId} {l : Label} {t u v x e : Grown} {ts : List Grown} {k : Link}
    {ks : List Link}
  {d : Lowering} {f g : Frame} {K : Context} {xs : List Temp} {c : NodeId} {cs : List NodeId}

def mentions (s : String) (t : Grown) : Nat := t.names.count s

def mentionsAll (s : String) (ts : List Grown) : Nat := (ts.flatMap names).count s

def namesakes (s : String) (xs : List Temp) : Nat := (xs.map Temp.name).count s

@[simp] theorem mentionsAll_nil : mentionsAll s [] = 0 := rfl

@[simp] theorem mentionsAll_cons (t : Grown) (ts : List Grown) :
    mentionsAll s (t :: ts) = mentions s t + mentionsAll s ts :=
  List.count_append

@[simp] theorem mentionsAll_append (ts us : List Grown) :
    mentionsAll s (ts ++ us) = mentionsAll s ts + mentionsAll s us := by
  rw [mentionsAll, List.flatMap_append, List.count_append]
  rfl

@[simp] theorem namesakes_nil : namesakes s [] = 0 := rfl

@[simp] theorem namesakes_cons (x : Temp) (xs : List Temp) :
    namesakes s (x :: xs) = namesakes s xs + if x.name = s then 1 else 0 := by
  simp [namesakes, List.count_cons]

@[simp] theorem namesakes_append (xs ys : List Temp) :
    namesakes s (xs ++ ys) = namesakes s xs + namesakes s ys := by
  rw [namesakes, List.map_append, List.count_append]
  rfl

theorem mentions_node (i : NodeId) (l : Label) (ts : List Grown) :
    (node i l ts).mentions s = l.name?.toList.count s + mentionsAll s ts := by
  rw [mentions, names_node, List.count_append]
  rfl

theorem mentions_of_ne (hl : l.kind ≠ .name) : (node i l ts).mentions s = mentionsAll s ts := by
  rw [mentions_node, Label.name?, if_neg hl]
  exact Nat.zero_add _

theorem mentions_link (hl : l.kind.isLink = true) :
    (node i l ts).mentions s = mentionsAll s ts := by
  refine mentions_of_ne fun e => ?_
  rw [e] at hl
  cases hl

theorem exists_mentions_fill (s : String) (f : Frame) :
    ∃ n, ∀ t, (f.fill t).mentions s = t.mentions s + n := by
  refine ⟨f.label.name?.toList.count s + (mentionsAll s f.left + mentionsAll s f.right),
    fun t => ?_⟩
  rw [Frame.fill, mentions_node, mentionsAll_append, mentionsAll_cons]
  omega

theorem exists_mentions_plug (s : String) (K : Context) :
    ∃ n, ∀ t, (plug K t).mentions s = t.mentions s + n := by
  induction K with
  | nil => exact ⟨0, fun t => rfl⟩
  | cons f K ih =>
    obtain ⟨m, hm⟩ := ih
    obtain ⟨n, hn⟩ := exists_mentions_fill s f
    exact ⟨n + m, fun t => by rw [plug_cons, hm, hn, Nat.add_assoc]⟩

/-! ## Temporaries -/

@[simp] theorem mentions_use (x : Temp) : x.use.mentions s = if x.name = s then 1 else 0 := by
  simp [Temp.use, mentions_node, Label.name?, Label.made, List.count_cons]

@[simp] theorem mentions_keep (x : Temp) (t : Grown) :
    (x.keep t).mentions s = t.mentions s + if x.name = s then 1 else 0 := by
  rw [Temp.keep, mentions_of_ne Kind.noConfusion, mentionsAll_cons, mentionsAll_cons,
    mentionsAll_nil]
  simp [mentions_node, Label.name?, Label.made, List.count_cons]
  omega

theorem mentionsAll_declarations (xs : List Temp) :
    mentionsAll s (xs.map Temp.declaration) = namesakes s xs := by
  induction xs with
  | nil => rfl
  | cons x xs ih =>
    rw [List.map_cons, mentionsAll_cons, ih, Temp.declaration, mentions_of_ne Kind.noConfusion,
      namesakes_cons]
    simp [mentions_node, Label.name?, Label.made, List.count_cons]
    omega

theorem mentions_declaring (hf : f.label.kind ≠ .name) (xs : List Temp) (t : Grown) :
    ((f.declaring xs).fill t).mentions s = (f.fill t).mentions s + namesakes s xs := by
  rw [Frame.fill, Frame.fill, Frame.declaring, mentions_of_ne hf, mentions_of_ne hf]
  simp only [mentionsAll_append, mentionsAll_declarations, mentionsAll_cons]
  omega

/-! ## One chain -/

def argMentions (s : String) (ks : List Link) : Nat := (ks.map fun k => mentionsAll s k.args).sum

theorem mentions_tower (hk : Linked ks) :
    (tower x ks).mentions s = x.mentions s + argMentions s ks := by
  induction ks using List.reverseRecOn with
  | nil => rfl
  | append_singleton ks k ih =>
    rw [tower_snoc, mentions_link (Tree.isChain_of_isLink (hk k (by simp))), mentionsAll_cons,
      ih fun j hj => hk j (List.mem_append_left _ hj)]
    simp [argMentions]
    omega

theorem mentions_split (v : Saved) (hk : k.label.kind.isChain = true) (e : Grown) :
    (split v k e).receiver.mentions s + (split v k e).rest.mentions s =
      e.mentions s + mentionsAll s k.args + 2 * namesakes s (split v k e).temps := by
  have hl := isLink_plain hk
  obtain hs | ⟨j, m, o, keys, rfl, hm, -, hs⟩ := split_cases v k e
  · rw [hs, mentions_link hl]
    simp only [mentions_keep, mentionsAll_cons, mentions_use, namesakes_cons, namesakes_nil]
    omega
  · have hdot : (node v.dot (.made .getProp (some "call") v.value.src) [v.value.use]).mentions s =
        v.value.use.mentions s :=
      (mentions_link rfl).trans (by simp)
    rw [hs, mentions_link hl]
    simp only [mentions_keep, mentionsAll_cons, mentions_use,
      mentions_link (Tree.isLink_of_isGet hm), hdot, namesakes_cons, namesakes_nil]
    omega

namespace Lowering

def mentions (s : String) (d : Lowering) : Nat :=
  (d.guards.map fun g => g.receiver.mentions s).sum + d.rest.mentions s

theorem mentions_step (glue : NodeId → Glue) (hk : k.label.kind.isChain = true) :
    (step glue d k).mentions s + 2 * namesakes s d.temps =
      d.mentions s + mentionsAll s k.args + 2 * namesakes s (step glue d k).temps := by
  rw [step]
  split_ifs
  · have h := mentions_split (s := s) (glue k.id).saved hk d.rest
    simp only [cut, mentions, List.map_append, List.map_singleton, List.sum_append,
      List.sum_singleton, namesakes_append]
    omega
  · rw [mentions, mentions, mentions_link (isLink_plain hk), mentionsAll_cons]
    dsimp only
    omega

theorem mentions_foldl_step (glue : NodeId → Glue) (hk : Linked ks) :
    (ks.foldl (step glue) d).mentions s + 2 * namesakes s d.temps =
      d.mentions s + argMentions s ks + 2 * namesakes s (ks.foldl (step glue) d).temps := by
  induction ks generalizing d with
  | nil => rfl
  | cons k ks ih =>
    have hstep := mentions_step (s := s) (d := d) glue (hk k List.mem_cons_self)
    have ih := ih (d := step glue d k) fun j hj => hk j (List.mem_cons_of_mem _ hj)
    simp only [List.foldl_cons, argMentions, List.map_cons, List.sum_cons] at ih ⊢
    omega

theorem mentions_close (d : Lowering) : d.close.mentions s = d.mentions s := by
  obtain ⟨xs, gs, e⟩ := d
  induction gs with
  | nil => exact (Nat.zero_add _).symm
  | cons g gs ih =>
    have hfill : ∀ t, (g.frame.fill t).mentions s = g.receiver.mentions s + t.mentions s := by
      intro t
      simp [Frame.fill, Guard.frame, Guard.test, Guard.undefined, mentions_of_ne, Label.made]
    rw [close_cons, hfill, ih]
    simp only [mentions, List.map_cons, List.sum_cons]
    omega

theorem mentions_lower (glue : NodeId → Glue) (hk : Linked ks) :
    (lower glue x ks).close.mentions s =
    (tower x ks).mentions s + 2 * namesakes s (lower glue x ks).temps := by
  have h := mentions_foldl_step (s := s) (d := { rest := x }) glue hk
  rw [mentions_close, mentions_tower hk]
  simp only [mentions, List.map_nil, List.sum_nil, namesakes_nil] at h ⊢
  rw [lower]
  omega

theorem mentions_placed (hr : Receivable d.rest) (y : Temp) (dot : NodeId)
    (src : Label) (g : Frame) : (d.placed y dot src g).mentions s + 2 * namesakes s d.temps =
      (g.fill d.close).mentions s + 2 * namesakes s (d.declared y g) := by
  rw [placed, declared]
  split_ifs with hc
  · simp only [isCalled, Bool.and_eq_true, decide_eq_true_eq] at hc
    have hlink : g.label.kind.isLink = true := by rw [hc.1.1]; rfl
    obtain ⟨xs, gs, ⟨j, m, _ | ⟨o, keys⟩⟩⟩ := d
    · exact absurd rfl (hr.2 hc.2)
    · have hget : m.kind.isLink = true := Tree.isLink_of_isGet hc.2
      rw [called, Frame.fill, List.isEmpty_iff.mp hc.1.2, List.nil_append, mentions_link hlink,
        mentions_link hlink]
      simp only [mentionsAll_cons, mentionsAll_nil, mentions_close, mentions, mentions_link hget,
        mentions_link (l := .made .getProp _ _) rfl, mentions_keep, mentions_use, namesakes_append,
        namesakes_cons, namesakes_nil]
      omega
  · rfl

end Lowering

/-! ## All chains -/

theorem Lowers.mentions (h : Lowers t c xs u) :
    u.mentions s = t.mentions s + 3 * namesakes s xs := by
  obtain ⟨set, -, glue, y, dot, src⟩ := h
  rename_i x ks g f K M
  obtain ⟨n, hn⟩ := exists_mentions_plug s (K ++ f :: M)
  obtain ⟨o, ho⟩ := exists_mentions_plug s M
  obtain ⟨p, hp⟩ := exists_mentions_fill s g
  have hf : f.label.kind ≠ .name := fun e => by
    have := set.owner
    rw [e] at this
    cases this
  have hdeclaring : ∀ v,
    (plug (K ++ f.declaring ((lower glue x ks).declared y g) :: M) v).mentions s =
      (plug (K ++ f :: M) v).mentions s + namesakes s ((lower glue x ks).declared y g) := by
    intro v
    rw [plug_append, plug_append, plug_cons, plug_cons, ho, ho, mentions_declaring hf]
    omega
  have hplaced :=
    Lowering.mentions_placed (s := s) (receivable_lower glue x set.nonempty) y dot src g
  rw [hp, Lowering.mentions_lower glue set.links] at hplaced
  rw [set.tree, List.cons_append, plug_cons, hdeclaring, hn, hn, hp]
  omega

theorem LowersAll.mentions (h : LowersAll t cs xs u) :
    u.mentions s = t.mentions s + 3 * namesakes s xs := by
  induction h with
  | nil => rfl
  | cons first _ ih =>
    rw [ih, first.mentions, namesakes_append]
    omega

end Grown

end ChainLowering
