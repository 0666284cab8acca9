import Z80Backend.Proofs.Control.Labels
import Z80Backend.Proofs.Function.Blocks
import Z80Backend.Proofs.Function.Enclosed
import Z80Backend.Proofs.Function.Labelled

/-! # Marks while a body is lowered

    The tracker goes through a body once and notes at each point whether control
    comes there, and with which depth of the stack.  A `Marking` keeps something
    of that as marks of points and of labels, and says which marks fit the lines
    between two points: its `Flow`.  A point without a mark is one that control
    does not come to.

    While a body is lowered, some labels stand in its lines and others are
    waited for by the jumps of open blocks.  `Body.Advances` says what one step
    adds: lines that marks fit, as soon as the labels have marks that fit what
    is still waited for.  Marks of labels that are waited for are found at the
    end of their block, so that this goes backwards: what the later state waits
    for settles what the earlier one did.

    * `Body.Advances` and `FnState.Moves` are steps, the second without blocks. -/

namespace Z80Backend

/-! ## Markings -/

/-- What is marked of the points of code, with the rules for the lines that
    lowering makes of structured control. -/
structure Marking (α : Type) where
  /-- The mark of a point that control comes to with the depth. -/
  ofDepth : Depth → α
  /-- The mark is in proportion to the number of lines before it. -/
  Within : Nat → α → Prop
  /-- There are no labels of the user. -/
  bare : Prop
  /-- The mark is one for labels of the user. -/
  User : Option α → Prop
  /-- What is asked of the marks of labels as a whole. -/
  Fits : (String → Option α) → Prop
  /-- Marks of labels fit the lines from a point, which has the number, to a
      later one. -/
  Flow : (String → Option α) → Nat → Option α → List Line → Option α → Prop
  within_mono : ∀ {p q a}, Within p a → p ≤ q → Within q a
  nil : ∀ {Λ p m m'}, (∀ a, m = some a → m' = some a) → Flow Λ p m [] m'
  append : ∀ {Λ p m m' m'' ls ms}, Flow Λ p m ls m' → Flow Λ (p + ls.length) m' ms m'' →
    Flow Λ p m (ls ++ ms) m''
  label : ∀ {Λ p m name span}, (∀ a, m = some a → Λ name = some a) →
    (∀ a, Λ name = some a → Within p a) → Flow Λ p m [.label name span] (Λ name)
  jump : ∀ {Λ p m r span name}, (∀ a, m = some a → Λ name = some a) →
    Flow Λ p m [.jump r span name] none
  branch : ∀ {Λ p m r span cc name}, Fits Λ → (∀ a, m = some a → Λ name = some a) →
    Flow Λ p m [.branch r span cc name] m
  compare : ∀ {Λ p m span v}, Flow Λ p m [.compare span v] m

namespace Marking

variable {α : Type} (T : Marking α)

/-- The mark of the current point. -/
def mark (t : Tracker) : Option α := if t.live then some (T.ofDepth t.depth) else none

/-- The mark of the point at which a block was opened. -/
def entry (o : Opening) : Option α := if o.live then some (T.ofDepth o.depth) else none

variable {T} {t : Tracker} {o : Opening} {ds : List Depth} {a : α}

theorem mark_eq_some : T.mark t = some a ↔ t.live = true ∧ T.ofDepth t.depth = a := by
  unfold mark
  cases t.live <;> simp

theorem entry_eq_some : T.entry o = some a ↔ o.live = true ∧ T.ofDepth o.depth = a := by
  unfold entry
  cases o.live <;> simp

theorem mark_of_dead (h : t.live = false) : T.mark t = none := by
  rw [mark, h, if_neg Bool.false_ne_true]

theorem isSome_mark (t : Tracker) : (T.mark t).isSome = t.live := by
  unfold mark
  cases t.live <;> rfl

theorem mem_reached {s : FnState} : a ∈ s.reached.map T.ofDepth ↔ T.mark s.tracker = some a := by
  unfold FnState.reached mark
  cases s.tracker.live <;> simp [eq_comm]

theorem mem_reached_opening : a ∈ o.reached.map T.ofDepth ↔ T.entry o = some a := by
  unfold Opening.reached entry
  cases o.live <;> simp [eq_comm]

/-- Depths that agree join to the one that they are. -/
theorem mark_joined (hall : ∀ d ∈ ds, ∀ d' ∈ ds, d = d') (ha : a ∈ ds.map T.ofDepth) :
    T.mark (Body.joined t ds) = some a := by
  obtain ⟨d, hd, rfl⟩ := List.mem_map.mp ha
  cases ds with
  | nil => cases hd
  | cons d' ds =>
    rw [hall d hd d' List.mem_cons_self]
    rfl

theorem mem_of_mark_joined (h : T.mark (Body.joined t ds) = some a) : a ∈ ds.map T.ofDepth := by
  cases ds with
  | nil => cases h
  | cons d' ds =>
    cases h
    exact List.mem_cons_self

variable {Λ : String → Option α} {p : Nat} {m m' : Option α} {name : String} {span : Span}

variable (T) in
/-- A label that has the mark of the point behind it. -/
theorem placed (hname : Λ name = m') (hin : ∀ a, m = some a → m' = some a)
    (hwithin : ∀ a, m' = some a → T.Within p a) : T.Flow Λ p m [.label name span] m' := by
  subst hname
  exact T.label hin hwithin

/-- The point behind may have a mark that it does not need. -/
theorem weaken {m'' : Option α} {ls : List Line} (h : T.Flow Λ p m ls m')
    (hm : ∀ a, m' = some a → m'' = some a) : T.Flow Λ p m ls m'' := by
  have hnil := T.append h (T.nil hm)
  rwa [List.append_nil] at hnil

end Marking

/-- Names that are distinct can each be given a mark, and all others the
    mark `a`. -/
theorem exists_marks {α : Type} (a : α) {marks : List (String × α)}
    (h : (marks.map Prod.fst).Nodup) :
    ∃ Λ : String → α, (∀ x ∈ marks, Λ x.1 = x.2) ∧ ∀ y, y ∉ marks.map Prod.fst → Λ y = a := by
  induction marks with
  | nil => exact ⟨fun _ => a, by simp, fun _ _ => rfl⟩
  | cons x xs ih =>
    rw [List.map_cons, List.nodup_cons] at h
    obtain ⟨Λ, hΛ, hrest⟩ := ih h.2
    refine ⟨fun name => if name = x.1 then x.2 else Λ name, fun y hy => ?_, fun y hy => ?_⟩
    · dsimp only
      rcases List.mem_cons.mp hy with rfl | hy
      · rw [if_pos rfl]
      · have hne : y.1 ≠ x.1 := fun heq => h.1 (heq ▸ List.mem_map_of_mem hy)
        rw [if_neg hne]
        exact hΛ y hy
    · rw [List.map_cons, List.mem_cons, not_or] at hy
      dsimp only
      rw [if_neg hy.1]
      exact hrest y hy.2

/-! ## Labels of lowering -/

theorem Label.not_isForeign_make {kind : String} (h : kind ∈ kinds) (k : Int) :
    ¬ IsForeign (make kind k) := fun hforeign => hforeign kind h k rfl

/-- New labels, with numbers above `m` and up to `n`. -/
structure Label.Between (m n : Int) (names : List String) : Prop where
  nodup : names.Nodup
  named : ∀ name ∈ names, ∃ kind ∈ kinds, ∃ k, name = make kind k ∧ m < k ∧ k ≤ n

namespace Label.Between

variable {m n k : Int} {xs ys : List String}

theorem nil : Between m n [] := ⟨.nil, by simp⟩

theorem one {kind : String} (h : kind ∈ kinds) (n : Int) :
    Between n (n + 1) [make kind (n + 1)] where
  nodup := by simp
  named name hname := by
    rw [List.mem_singleton] at hname
    exact ⟨kind, h, n + 1, hname, by omega, by omega⟩

theorem append (hxs : Between m n xs) (hys : Between n k ys) (hmn : m ≤ n) (hnk : n ≤ k) :
    Between m k (xs ++ ys) where
  nodup := by
    refine List.nodup_append.mpr ⟨hxs.nodup, hys.nodup, fun x hx y hy heq => ?_⟩
    obtain ⟨kind, _, i, rfl, _, _⟩ := hxs.named x hx
    obtain ⟨kind', _, j, rfl, _, _⟩ := hys.named y hy
    have hij := make_inj heq
    omega
  named name hname := by
    rcases List.mem_append.mp hname with hx | hy
    · obtain ⟨kind, hkind, i, rfl, _, _⟩ := hxs.named name hx
      exact ⟨kind, hkind, i, rfl, by omega, by omega⟩
    · obtain ⟨kind, hkind, j, rfl, _, _⟩ := hys.named name hy
      exact ⟨kind, hkind, j, rfl, by omega, by omega⟩

theorem two {kind kind' : String} (h : kind ∈ kinds) (h' : kind' ∈ kinds) (n : Int) :
    Between n (n + 2) [make kind (n + 1), make kind' (n + 2)] := by
  have htwo := (one h n).append (one h' (n + 1)) (by omega) (by omega)
  rw [Int.add_assoc] at htwo
  exact htwo

theorem not_isForeign (h : Between m n xs) : ∀ name ∈ xs, ¬ IsForeign name := by
  intro name hname
  obtain ⟨kind, hkind, k, rfl, _⟩ := h.named name hname
  exact not_isForeign_make hkind k

end Label.Between

/-! ## Open blocks -/

namespace Block

/-- How control came to the block, if its opening could be read. -/
def opening? : Block → Option Opening
  | ifBlock o _ _ _ _ | whileBlock o _ _ _ | repeatBlock o _ | selectBlock o _ _ _ _ _ _ => some o
  | broken _ => none

/-- The depths at the ends of earlier arms. -/
def exits : Block → List Depth
  | ifBlock _ _ _ _ ds | selectBlock _ _ _ _ _ ds _ => ds
  | whileBlock _ _ _ _ | repeatBlock _ _ | broken _ => []

/-- The labels that are waited for. -/
def pending : Block → List String
  | ifBlock _ other last elseSeen _ => (if elseSeen then [] else [other]) ++ [last]
  | whileBlock _ _ _ test => [test]
  | selectBlock _ last next _ _ _ _ => next.toList ++ [last]
  | repeatBlock _ _ | broken _ => []

section

variable {α : Type} (T : Marking α)

/-- The marks of the points of a block that jumps come from. -/
def Records (k : Block) (a : α) : Prop :=
  (∃ o, k.opening? = some o ∧ T.entry o = some a) ∨ a ∈ k.exits.map T.ofDepth

/-- The label at the top of a loop has the mark of its entry. -/
def Known (Λ : String → Option α) : Block → Prop
  | whileBlock o _ top _ | repeatBlock o top => ∀ a, T.entry o = some a → Λ top = some a
  | _ => True

/-- The labels that are waited for have the marks of the jumps to them. -/
def Awaits (Λ : String → Option α) : Block → Prop
  | ifBlock o other last elseSeen ds =>
    (elseSeen = false → ∀ a, T.entry o = some a → Λ other = some a) ∧
      ∀ a ∈ ds.map T.ofDepth, Λ last = some a
  | whileBlock o _ _ test => ∀ a, T.entry o = some a → Λ test = some a
  | selectBlock o last next _ _ ds _ =>
    (∀ n, next = some n → ∀ a, T.entry o = some a → Λ n = some a) ∧
      ∀ a ∈ ds.map T.ofDepth, Λ last = some a
  | repeatBlock _ _ | broken _ => True

end

end Block

/-! ## Steps -/

namespace Body

/-- The labels that a body waits for. -/
def pending (b : Body) : List String := b.blocks.flatMap Block.pending

variable {α : Type}

/-- What a step from `b` to `b'` adds: lines with labels of the given marks, and
    new labels. -/
structure Adds (T : Marking α) (b b' : Body) (ls : List Line) (marks : List (String × Option α))
    (new : List String) : Prop where
  lines : b'.fn.lines = b.fn.lines ++ ls
  named : marks.map Prod.fst = Line.labelNames ls
  user : ∀ x ∈ marks, Label.IsForeign x.1 → T.User x.2
  counter : T.bare → b.fn.counter ≤ b'.fn.counter
  fresh : T.bare → Label.Between b.fn.counter b'.fn.counter new
  perm : (Line.labelNames ls ++ b'.pending).Perm (new ++ b.pending)
  known : ∀ Λ, (∀ x ∈ marks, Λ x.1 = x.2) → (∀ k ∈ b.blocks, k.Known T Λ) →
    ∀ k ∈ b'.blocks, k.Known T Λ
  flow : ∀ Λ, T.Fits Λ → (∀ x ∈ marks, Λ x.1 = x.2) → (∀ k ∈ b.blocks, k.Known T Λ) →
    (∀ k ∈ b'.blocks, k.Awaits T Λ) →
    (∀ k ∈ b.blocks, k.Awaits T Λ) ∧
      T.Flow Λ b.fn.lines.length (T.mark b.fn.tracker) ls (T.mark b'.fn.tracker)

/-- The step from `b` to `b'` adds lines that marks fit. -/
def Advances (T : Marking α) (b b' : Body) : Prop := ∃ ls marks new, Adds T b b' ls marks new

section

variable {T : Marking α} {b b' b'' : Body}

/-- A step without a line, when the open blocks wait for the same labels. -/
theorem Advances.of_blocks {s s' : FnState} {ks ks' : List Block} (hlines : s'.lines = s.lines)
    (htracker : s'.tracker = s.tracker) (hcounter : T.bare → s.counter ≤ s'.counter)
    (hpending : ks'.flatMap Block.pending = ks.flatMap Block.pending)
    (hknown : ∀ Λ, (∀ k ∈ ks, k.Known T Λ) → ∀ k ∈ ks', k.Known T Λ)
    (hawaits : ∀ Λ, (∀ k ∈ ks', k.Awaits T Λ) → ∀ k ∈ ks, k.Awaits T Λ) :
    Advances T { fn := s, blocks := ks } { fn := s', blocks := ks' } :=
  ⟨[], [], [],
    { lines := by rw [hlines, List.append_nil]
      named := rfl
      user := nofun
      counter := hcounter
      fresh := fun _ => .nil
      perm := by
        show List.Perm (ks'.flatMap Block.pending) (ks.flatMap Block.pending)
        rw [hpending]
      known := fun Λ _ => hknown Λ
      flow := fun Λ _ _ _ h => ⟨hawaits Λ h, T.nil fun a ha => htracker.symm ▸ ha⟩ }⟩

theorem Advances.refl (b : Body) : Advances T b b :=
  .of_blocks rfl rfl (fun _ => Int.le_refl _) rfl (fun _ h => h) fun _ h => h

theorem Adds.trans {ls ls' : List Line} {marks marks' : List (String × Option α)}
    {new new' : List String} (h : Adds T b b' ls marks new) (h' : Adds T b' b'' ls' marks' new') :
    Adds T b b'' (ls ++ ls') (marks ++ marks') (new ++ new') where
  lines := by rw [h'.lines, h.lines, List.append_assoc]
  named := by rw [List.map_append, h.named, h'.named, Line.labelNames_append]
  user := List.forall_mem_append.mpr ⟨h.user, h'.user⟩
  counter hbare := Int.le_trans (h.counter hbare) (h'.counter hbare)
  fresh hbare :=
    (h.fresh hbare).append (h'.fresh hbare) (h.counter hbare) (h'.counter hbare)
  perm := by
    rw [Line.labelNames_append, List.append_assoc]
    refine (h'.perm.append_left _).trans ?_
    rw [← List.append_assoc]
    refine (List.perm_append_comm.append_right _).trans ?_
    rw [List.append_assoc]
    refine (h.perm.append_left _).trans ?_
    rw [← List.append_assoc]
    exact List.perm_append_comm.append_right _
  known := by
    intro Λ hmarks hknown
    obtain ⟨hmarks, hmarks'⟩ := List.forall_mem_append.mp hmarks
    exact h'.known Λ hmarks' (h.known Λ hmarks hknown)
  flow := by
    intro Λ hΛ hmarks hknown hawaits
    obtain ⟨hmarks, hmarks'⟩ := List.forall_mem_append.mp hmarks
    obtain ⟨hawaits', hflow'⟩ := h'.flow Λ hΛ hmarks' (h.known Λ hmarks hknown) hawaits
    obtain ⟨hawaits'', hflow⟩ := h.flow Λ hΛ hmarks hknown hawaits'
    rw [h.lines, List.length_append] at hflow'
    exact ⟨hawaits'', T.append hflow hflow'⟩

theorem Advances.trans (h : Advances T b b') (h' : Advances T b' b'') : Advances T b b'' := by
  obtain ⟨ls, marks, new, h⟩ := h
  obtain ⟨ls', marks', new', h'⟩ := h'
  exact ⟨ls ++ ls', marks ++ marks', new ++ new', h.trans h'⟩

/-- Marks that were in proportion to the lines stay so. -/
theorem Advances.within {a : α} (h : Advances T b b') (ha : T.Within b.fn.lines.length a) :
    T.Within b'.fn.lines.length a := by
  obtain ⟨ls, marks, new, h⟩ := h
  refine T.within_mono ha ?_
  rw [h.lines, List.length_append]
  omega

/-- What is done inside a body does not touch the blocks around it. -/
theorem Advances.under (h : Advances T b b') (ks : List Block) :
    Advances T (b.under ks) (b'.under ks) := by
  obtain ⟨ls, marks, new, h⟩ := h
  have hpending : ∀ c : Body, (c.under ks).pending = c.pending ++ ks.flatMap Block.pending :=
    fun c => List.flatMap_append
  refine ⟨ls, marks, new,
    { lines := h.lines
      named := h.named
      user := h.user
      counter := h.counter
      fresh := h.fresh
      perm := ?_
      known := fun Λ hmarks hknown => ?_
      flow := fun Λ hΛ hmarks hknown hawaits => ?_ }⟩
  · rw [hpending, hpending, ← List.append_assoc, ← List.append_assoc]
    exact h.perm.append_right _
  · obtain ⟨hinner, hks⟩ := List.forall_mem_append.mp hknown
    exact List.forall_mem_append.mpr ⟨h.known Λ hmarks hinner, hks⟩
  · obtain ⟨hinner, hks⟩ := List.forall_mem_append.mp hawaits
    obtain ⟨hbefore, hflow⟩ := h.flow Λ hΛ hmarks (List.forall_mem_append.mp hknown).1 hinner
    exact ⟨List.forall_mem_append.mpr ⟨hbefore, hks⟩, hflow⟩

/-- Marks fit the lines of two steps, as soon as they fit the labels of both. -/
theorem Adds.flows {s s' : FnState} {c : Body} {ls ls' : List Line}
    {marks marks' : List (String × Option α)} {new new' : List String} {Λ : String → Option α}
    (h : Adds T { fn := s } c ls marks new) (h' : Adds T c { fn := s' } ls' marks' new')
    (hΛ : T.Fits Λ) (hmarks : ∀ x ∈ marks ++ marks', Λ x.1 = x.2) :
    T.Flow Λ s.lines.length (T.mark s.tracker) ls (T.mark c.fn.tracker) ∧
      T.Flow Λ (s.lines.length + ls.length) (T.mark c.fn.tracker) ls' (T.mark s'.tracker) := by
  obtain ⟨hmarks, hmarks'⟩ := List.forall_mem_append.mp hmarks
  have hknown := h.known Λ hmarks (by simp)
  -- what is waited for between the steps is settled by the second one
  obtain ⟨hawaits, hflow'⟩ := h'.flow Λ hΛ hmarks' hknown (by simp)
  rw [h.lines, List.length_append] at hflow'
  exact ⟨(h.flow Λ hΛ hmarks (by simp) hawaits).2, hflow'⟩

end

end Body

/-! ## Steps outside of blocks -/

namespace FnState

variable {α : Type}

/-- The mark of the current point is in proportion to the lines before it. -/
def InBounds (T : Marking α) (s : FnState) : Prop :=
  ∀ a, T.mark s.tracker = some a → T.Within s.lines.length a

/-- What a step does that leaves the blocks alone. -/
structure Moves (T : Marking α) (s s' : FnState) : Prop where
  advances : Body.Advances T { fn := s } { fn := s' }
  live : T.bare → s'.tracker.live = true → s.tracker.live = true
  inBounds : s.InBounds T → s'.InBounds T

namespace Moves

variable {T : Marking α} {s s' s'' : FnState}

theorem refl (s : FnState) : Moves T s s := ⟨.refl _, fun _ => id, id⟩

theorem trans (h : Moves T s s') (h' : Moves T s' s'') : Moves T s s'' where
  advances := h.advances.trans h'.advances
  live hbare hlive := h.live hbare (h'.live hbare hlive)
  inBounds hs := h'.inBounds (h.inBounds hs)

/-- Lines without labels, when marks fit them. -/
theorem of_lines {ls : List Line} (hlines : s'.lines = s.lines ++ ls)
    (hcounter : T.bare → s.counter ≤ s'.counter) (hnames : Line.labelNames ls = [])
    (hlive : T.bare → s'.tracker.live = true → s.tracker.live = true)
    (hbounds : s.InBounds T → s'.InBounds T)
    (hflow : ∀ Λ, T.Fits Λ →
      T.Flow Λ s.lines.length (T.mark s.tracker) ls (T.mark s'.tracker)) :
    Moves T s s' where
  advances := ⟨ls, [], [],
    { lines := hlines
      named := hnames.symm
      user := nofun
      counter := hcounter
      fresh := fun _ => .nil
      perm := by simp [hnames, Body.pending]
      known := by simp
      flow := fun Λ hΛ _ _ hawaits => ⟨hawaits, hflow Λ hΛ⟩ }⟩
  live := hlive
  inBounds := hbounds

/-- Nothing moves where neither lines nor the tracker change. -/
theorem of_eq (hlines : s'.lines = s.lines) (htracker : s'.tracker = s.tracker)
    (hcounter : T.bare → s.counter ≤ s'.counter) : Moves T s s' := by
  refine of_lines (by rw [hlines, List.append_nil]) hcounter rfl (fun _ h => htracker ▸ h) ?_ ?_
  · intro hs a ha
    rw [hlines]
    exact hs a (htracker ▸ ha)
  · intro Λ _
    rw [htracker]
    exact T.nil fun _ ha => ha

theorem note (e : Event) : Moves T s (s.note e) := of_eq rfl rfl fun _ => Int.le_refl _

end Moves

end FnState

end Z80Backend
