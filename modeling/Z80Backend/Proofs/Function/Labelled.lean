import Z80Backend.Proofs.Assembly.Names
import Z80Backend.Proofs.Control.Labels
import Z80Backend.Proofs.Function.Growth

/-! # Labels that are promised

    A block makes its labels when it is opened and places them when it is
    closed, perhaps only in the clean-up at the end of its body.  In between the
    label is promised: code may jump to it although it is not there yet.

    The invariant says that placed and promised labels are all different, and
    that code waits only for these.  Emitting code leaves labels alone, so only
    three operations matter: making a label promises it, placing it keeps the
    promise, and a label of the user is placed unless it is there already.

    * `FnState.Labelled` is the invariant of a state, and `Body.Sound` that of a
      body with its open blocks.
    * `FnState.Appends` is what emitting and reporting can do, and
      `FnState.Adds` is what it leaves of labels.
    * `Body.sound_openIf` and its companions: each word of structured control
      keeps a body sound; `Body.labelled_close`: the end of a body keeps all
      promises. -/

namespace Z80Backend

/-! ## Kinds of labels -/

namespace Label

/-- The label was made by lowering, with a number up to `n`. -/
def IsMade (n : Int) (x : String) : Prop := ∃ kind ∈ kinds, ∃ k ≤ n, x = make kind k

/-- The label is none that lowering makes. -/
def IsForeign (x : String) : Prop := ∀ kind ∈ kinds, ∀ k, x ≠ make kind k

theorem IsMade.mono {m n : Int} {x : String} (h : IsMade m x) (hmn : m ≤ n) : IsMade n x := by
  obtain ⟨kind, hkind, k, hk, hx⟩ := h
  exact ⟨kind, hkind, k, Int.le_trans hk hmn, hx⟩

theorem isGenerated_make (kind : String) (k : Int) : isGenerated (make kind k) = true := by
  rw [isGenerated, List.isPrefixOf_iff_prefix]
  refine ⟨kind.toList ++ "_".toList ++ k.repr.toList, ?_⟩
  simp [make, String.toList_append]

/-- A name of the user is foreign. -/
theorem isForeign_of_not_generated {x : String} (h : isGenerated x = false) : IsForeign x := by
  intro kind _ k hx
  rw [hx, isGenerated_make] at h
  cases h

/-- A renamed label of an op is foreign: no kind begins like `op`. -/
theorem isForeign_renamed (k : Int) (l : String) : IsForeign (make "op" k ++ "_" ++ l) := by
  intro kind hkind m h
  have hfirst : ∀ kind ∈ kinds, ∃ c, kind.toList.head? = some c ∧ c ≠ 'o' := by
    intro kind hkind
    simp only [kinds, List.mem_cons, List.not_mem_nil, or_false] at hkind
    rcases hkind with rfl | rfl | rfl | rfl | rfl | rfl | rfl | rfl | rfl <;>
      exact ⟨_, rfl, by decide⟩
  obtain ⟨c, hc, hne⟩ := hfirst kind hkind
  have hlist := congrArg String.toList h
  simp only [make, String.toList_append, List.append_assoc] at hlist
  have hhead := congrArg List.head? (List.append_cancel_left hlist)
  simp only [List.head?_append, hc] at hhead
  have ho : some 'o' = some c := hhead
  exact hne (Option.some.inj ho).symm

end Label

/-! ## States -/

theorem Line.hasLabel_iff {name : String} {ls : List Line} :
    Line.hasLabel name ls = true ↔ name ∈ Line.labelNames ls := by
  rw [hasLabel, List.any_eq_true, labelNames, List.mem_filterMap]
  constructor
  · rintro ⟨l, hl, hname⟩
    refine ⟨l, hl, ?_⟩
    split at hname
    · rw [labelName?, beq_iff_eq.mp hname]
    · cases hname
  · rintro ⟨l, hl, hname⟩
    refine ⟨l, hl, ?_⟩
    cases l <;> cases hname
    simp

namespace FnState

/-- The labels in `there` are placed and those in `pending` are promised, and code
    waits for labels that are placed, promised, or in `K`. -/
structure Labelled (there pending : List String) (K : String → Prop) (s : FnState) : Prop where
  there : there ⊆ Line.labelNames s.lines
  nodup : (Line.labelNames s.lines ++ pending).Nodup
  made : ∀ x ∈ Line.labelNames s.lines ++ pending,
    x ∈ s.userLabels ∨ Label.IsMade s.counter x
  user : ∀ x ∈ s.userLabels, x ∈ Line.labelNames s.lines ∧ Label.IsForeign x
  known : ∀ x ∈ Line.listSymbols s.lines, Label.isGenerated x = true →
    x ∈ Line.labelNames s.lines ++ pending ∨ K x

/-- The second state has more code than the first, but no other labels.  The
    generated labels that the new code waits for are in `K`. -/
structure Adds (K : String → Prop) (s s' : FnState) : Prop where
  labels : Line.labelNames s'.lines = Line.labelNames s.lines
  symbols : ∀ x ∈ Line.listSymbols s'.lines, Label.isGenerated x = true →
    x ∈ Line.listSymbols s.lines ∨ K x
  user : s'.userLabels = s.userLabels
  counter : s.counter ≤ s'.counter

namespace Adds

variable {K : String → Prop} {s s' s'' : FnState}

/-- Where lines, labels of the user and numbers stay, nothing is added. -/
theorem of_same (hlines : s'.lines = s.lines) (huser : s'.userLabels = s.userLabels)
    (hcounter : s.counter ≤ s'.counter) : Adds K s s' where
  labels := by rw [hlines]
  symbols x hx _ := .inl (hlines ▸ hx)
  user := huser
  counter := hcounter

theorem refl (s : FnState) : Adds K s s := of_same rfl rfl (Int.le_refl _)

theorem trans (h : Adds K s s') (h' : Adds K s' s'') : Adds K s s'' where
  labels := h'.labels.trans h.labels
  symbols x hx hgen := by
    rcases h'.symbols x hx hgen with hx | hK
    · exact h.symbols x hx hgen
    · exact .inr hK
  user := h'.user.trans h.user
  counter := Int.le_trans h.counter h'.counter

/-- What each element of a list adds, the whole list adds. -/
theorem foldl {α : Type} {f : FnState → α → FnState} {as : List α}
    (h : ∀ a ∈ as, ∀ s, Adds K s (f s a)) (s : FnState) : Adds K s (as.foldl f s) := by
  induction as generalizing s with
  | nil => exact refl s
  | cons a as ih =>
    have hrest := ih (fun b hb => h b (List.mem_cons_of_mem _ hb)) (f s a)
    exact (h a List.mem_cons_self s).trans hrest

end Adds

section

variable {K : String → Prop} (s : FnState)

theorem adds_note (e : Event) : Adds K s (s.note e) := .of_same rfl rfl (Int.le_refl _)

theorem adds_report (p : Problem) (span : Span) : Adds K s (s.report p span) := by
  unfold report
  dsimp only
  split
  · exact .of_same rfl rfl (Int.le_refl _)
  · exact .of_same rfl rfl (Int.le_refl _)

theorem adds_check (e : Option StackError) (span : Span) : Adds K s (s.check e span) := by
  cases e with
  | none => exact .refl s
  | some e => exact s.adds_report (.stack e) span

theorem adds_resume (d : Depth) (live : Bool) : Adds K s (s.resume d live) :=
  .of_same rfl rfl (Int.le_refl _)

theorem adds_join (site : JoinSite) (span : Span) (ds : List Depth) :
    Adds K s (s.join site span ds) := by
  unfold join
  split
  · exact .of_same rfl rfl (Int.le_refl _)
  · exact .trans (s.adds_check (Depth.join site ds).2 span) (.of_same rfl rfl (Int.le_refl _))

theorem adds_condition {cond word : String} {span : Span} {s' : FnState}
    (h : s.condition cond word span = .error s') : Adds K s s' := by
  unfold condition at h
  split at h
  · cases h
  · cases h
    exact s.adds_report _ _

/-- A line of code that waits for labels in `K`. -/
theorem adds_line {i : Instruction} (hi : i.Asks K) {r : Resolver} {code : MachineInstr}
    (h : assemble r i = .ok code) {s' : FnState}
    (hlines : s'.lines = s.lines ++ [Line.instr i code])
    (huser : s'.userLabels = s.userLabels) (hcounter : s'.counter = s.counter) :
    Adds K s s' where
  labels := by simp [hlines]
  symbols x hx hgen := by
    rw [hlines, Line.listSymbols_append, Line.listSymbols_instr, List.mem_append] at hx
    rcases hx with hx | hx
    · exact .inl hx
    · exact .inr (hi r code h x hx hgen)
  user := huser
  counter := Int.le_of_eq hcounter.symm

theorem adds_emit {i : Instruction} (hi : i.Asks K) (r : Resolver) : Adds K s (s.emit r i) := by
  unfold emit
  split
  · exact s.adds_report _ _
  · rename_i code hcode
    exact s.adds_line hi hcode rfl rfl rfl

theorem adds_emitAll {is : List Instruction} (h : ∀ i ∈ is, i.Asks K) (r : Resolver)
    (span : Span) : Adds K s (s.emitAll r span is) :=
  .foldl (fun i hi s => s.adds_emit ((h i hi).with_span span) r) s

theorem adds_emitSilent {i : Instruction} (hi : i.Asks K) (r : Resolver) (span : Span) :
    Adds K s (s.emitSilent r span i) := by
  unfold emitSilent
  split
  · exact s.adds_report _ _
  · rename_i code hcode
    exact s.adds_line hi hcode rfl rfl rfl

/-- A jump under a condition, or none, to a label. -/
theorem adds_jump {os : List Operand}
    (h : ∀ o ∈ os, ∀ x ∈ o.names, Label.isGenerated x = true → K x) (r : Resolver) (span : Span) :
    Adds K s (s.jump r span os) := by
  apply adds_emit
  apply Instruction.Asks.of_names
  intro x hx
  obtain ⟨o, ho, hx⟩ := List.mem_flatMap.mp hx
  exact h o ho x hx

end

/-- The second state is reached from the first one by noting, reporting and
    emitting code.  The generated labels that the code waits for are in `K`. -/
inductive Appends (K : String → Prop) (s : FnState) : FnState → Prop where
  | refl : Appends K s s
  | note {t} (h : Appends K s t) (e : Event) : Appends K s (t.note e)
  | report {t} (h : Appends K s t) (p : Problem) (span : Span) : Appends K s (t.report p span)
  | count {t} (h : Appends K s t) (n : Int64) : Appends K s { t with returns := n }
  | emit {t i} (h : Appends K s t) (hi : i.Asks K) (r : Resolver) : Appends K s (t.emit r i)
  | emitSilent {t i} (h : Appends K s t) (hi : i.Asks K) (r : Resolver) (span : Span) :
      Appends K s (t.emitSilent r span i)

namespace Appends

variable {K : String → Prop} {s s' s'' : FnState}

theorem trans (h : Appends K s s') (h' : Appends K s' s'') : Appends K s s'' := by
  induction h' with
  | refl => exact h
  | note _ e ih => exact ih.note e
  | report _ p span ih => exact ih.report p span
  | count _ n ih => exact ih.count n
  | emit _ hi r ih => exact ih.emit hi r
  | emitSilent _ hi r span ih => exact ih.emitSilent hi r span

/-- What each element of a list appends, the whole list appends. -/
theorem foldl {α : Type} {f : FnState → α → FnState} {as : List α}
    (h : ∀ a ∈ as, ∀ s, Appends K s (f s a)) (s : FnState) : Appends K s (as.foldl f s) := by
  induction as generalizing s with
  | nil => exact refl
  | cons a as ih =>
    have hrest := ih (fun b hb => h b (List.mem_cons_of_mem _ hb)) (f s a)
    exact (h a List.mem_cons_self s).trans hrest

theorem check (h : Appends K s s') (e : Option StackError) (span : Span) :
    Appends K s (s'.check e span) := by
  cases e with
  | none => exact h
  | some e => exact h.report (.stack e) span

theorem emitAll {is : List Instruction} (his : ∀ i ∈ is, i.Asks K) (r : Resolver) (span : Span)
    (s : FnState) : Appends K s (s.emitAll r span is) :=
  foldl (fun i hi s => (refl (s := s)).emit ((his i hi).with_span span) r) s

/-- Code and reports bring no labels. -/
theorem adds (h : Appends K s s') : Adds K s s' := by
  induction h with
  | refl => exact .refl s
  | note _ e ih => exact ih.trans (adds_note _ e)
  | report _ p span ih => exact ih.trans (adds_report _ p span)
  | count _ n ih => exact ih.trans (.of_same rfl rfl (Int.le_refl _))
  | emit _ hi r ih => exact ih.trans (adds_emit _ hi r)
  | emitSilent _ hi r span ih => exact ih.trans (adds_emitSilent _ hi r span)

end Appends

namespace Labelled

variable {there there' pending pending' : List String} {K : String → Prop} {s s' : FnState}

/-- The labels that code may wait for in a state. -/
def Known (pending : List String) (K : String → Prop) (s : FnState) (x : String) : Prop :=
  x ∈ Line.labelNames s.lines ++ pending ∨ K x

theorem adds (h : s.Labelled there pending K) (h' : Adds (Known pending K s) s s') :
    s'.Labelled there pending K where
  there := by
    rw [h'.labels]
    exact h.there
  nodup := by
    rw [h'.labels]
    exact h.nodup
  made x hx := by
    rw [h'.labels] at hx
    rw [h'.user]
    exact (h.made x hx).imp_right fun hmade => hmade.mono h'.counter
  user x hx := by
    rw [h'.user] at hx
    rw [h'.labels]
    exact h.user x hx
  known x hx hgen := by
    rw [h'.labels]
    rcases h'.symbols x hx hgen with hx | hK
    · exact h.known x hx hgen
    · exact hK

/-- The order of labels does not matter. -/
theorem perm (h : s.Labelled there pending K) (ht : there' ⊆ there) (hp : pending.Perm pending') :
    s.Labelled there' pending' K where
  there := List.Subset.trans ht h.there
  nodup := (hp.append_left _).nodup h.nodup
  made x hx := h.made x ((hp.append_left _).mem_iff.mpr hx)
  user := h.user
  known x hx hgen := (h.known x hx hgen).imp_left (hp.append_left _).mem_iff.mp

/-- More labels may be known, and those that are placed need not be. -/
theorem mono {K' : String → Prop} (h : s.Labelled there pending K)
    (hK : ∀ x, K x → K' x ∨ x ∈ there) : s.Labelled there pending K' where
  there := h.there
  nodup := h.nodup
  made := h.made
  user := h.user
  known x hx hgen := by
    rcases h.known x hx hgen with hx | hx
    · exact .inl hx
    · rcases hK x hx with hx | hx
      · exact .inr hx
      · exact .inl (List.mem_append_left _ (h.there hx))

/-- Making a label promises it.  Its number is new. -/
theorem fresh (h : s.Labelled there pending K) (kind : String) (hkind : kind ∈ Label.kinds) :
    (s.freshLabel kind).2.Labelled there ((s.freshLabel kind).1 :: pending) K where
  there := h.there
  nodup := by
    show (Line.labelNames s.lines ++ Label.make kind (s.counter + 1) :: pending).Nodup
    rw [List.perm_middle.nodup_iff, List.nodup_cons]
    refine ⟨fun hmem => ?_, h.nodup⟩
    rcases h.made _ hmem with huser | ⟨kind', _, k, hk, heq⟩
    · exact (h.user _ huser).2 kind hkind _ rfl
    · have := Label.make_inj heq
      omega
  made x hx := by
    have hnext : s.counter ≤ s.counter + 1 := by omega
    rcases List.mem_cons.mp (List.perm_middle.mem_iff.mp hx) with rfl | hx
    · exact .inr ⟨kind, hkind, s.counter + 1, Int.le_refl _, rfl⟩
    · exact (h.made x hx).imp_right fun hmade => hmade.mono hnext
  user := h.user
  known x hx hgen := by
    refine (h.known x hx hgen).imp_left fun hx => ?_
    exact List.perm_middle.mem_iff.mpr (List.mem_cons_of_mem _ hx)

/-- Placing a label keeps its promise. -/
theorem placed {x : String} (h : s.Labelled there (x :: pending) K) (span : Span) :
    (s.placeLabel x span).Labelled (x :: there) pending K := by
  have hlabels : Line.labelNames (s.placeLabel x span).lines = Line.labelNames s.lines ++ [x] := by
    simp [placeLabel]
  have hnames : Line.labelNames (s.placeLabel x span).lines ++ pending =
      Line.labelNames s.lines ++ x :: pending := by
    simp [hlabels]
  refine ⟨?_, ?_, ?_, ?_, ?_⟩
  · rw [hlabels]
    exact List.cons_subset.mpr ⟨by simp, List.Subset.trans h.there (List.subset_append_left _ _)⟩
  · rw [hnames]
    exact h.nodup
  · rw [hnames]
    exact h.made
  · intro y hy
    obtain ⟨hmem, hforeign⟩ := h.user y hy
    exact ⟨by simp [hlabels, hmem], hforeign⟩
  · intro y hy
    rw [hnames]
    apply h.known
    simpa [placeLabel] using hy

theorem place {x : String} (h : s.Labelled there (x :: pending) K) (span : Span) :
    (s.placeLabel x span).Labelled there pending K :=
  (h.placed span).perm (List.subset_cons_self _ _) (.refl _)

theorem goto (h : s.Labelled there pending K) (r : Resolver) (span : Span) {name : String}
    (hname : name ∈ pending) : (s.jump r span [.ofName name]).Labelled there pending K := by
  refine h.adds (s.adds_jump ?_ r span)
  intro o ho x hx _
  obtain rfl := List.mem_singleton.mp ho
  obtain rfl := List.mem_singleton.mp hx
  exact .inl (List.mem_append_right _ hname)

theorem branch (h : s.Labelled there pending K) (r : Resolver) (span : Span) (cc : Condition)
    {name : String} (hname : name ∈ there ∨ name ∈ pending) :
    (s.jump r span [.ofReg cc.text, .ofName name]).Labelled there pending K := by
  refine h.adds (s.adds_jump ?_ r span)
  intro o ho x hx hgen
  simp only [List.mem_cons, List.not_mem_nil, or_false] at ho
  rcases ho with rfl | rfl
  · obtain rfl := List.mem_singleton.mp hx
    cases cc <;> exact absurd hgen (by decide)
  · obtain rfl := List.mem_singleton.mp hx
    exact .inl (List.mem_append.mpr (hname.imp_left fun hx => h.there hx))

/-- A label of the user is placed unless it is there already. -/
theorem define (h : s.Labelled there pending K) (ctx : FnContext) {name : String}
    (hname : Label.IsForeign name) (span : Span) :
    (ctx.defineLabel name span s).Labelled (name :: there) pending K := by
  unfold FnContext.defineLabel
  split
  · rename_i hmem
    have hthere : name ∈ Line.labelNames s.lines := (h.user name (by simpa using hmem)).1
    have hboth : s.Labelled (name :: there) pending K :=
      { h with there := List.cons_subset.mpr ⟨hthere, h.there⟩ }
    exact hboth.adds (s.adds_report _ _)
  · rename_i hmem
    have hnew : name ∉ Line.labelNames s.lines ++ pending := by
      intro hx
      rcases h.made name hx with huser | ⟨kind, hkind, k, _, heq⟩
      · exact hmem (by simpa using huser)
      · exact hname kind hkind k heq
    have hnames : Line.labelNames (s.lines ++ [Line.label name span]) ++ pending =
        Line.labelNames s.lines ++ name :: pending := by
      simp
    refine ⟨?_, ?_, ?_, ?_, ?_⟩
    · show name :: there ⊆ Line.labelNames (s.lines ++ [Line.label name span])
      refine List.cons_subset.mpr ⟨by simp, fun x hx => ?_⟩
      simp [h.there hx]
    · show (Line.labelNames (s.lines ++ [Line.label name span]) ++ pending).Nodup
      rw [hnames, List.perm_middle.nodup_iff, List.nodup_cons]
      exact ⟨hnew, h.nodup⟩
    · intro x hx
      have hx' : x ∈ Line.labelNames s.lines ++ name :: pending := hnames ▸ hx
      show x ∈ s.userLabels ++ [name] ∨ Label.IsMade s.counter x
      rcases List.mem_cons.mp (List.perm_middle.mem_iff.mp hx') with rfl | hx'
      · exact .inl (by simp)
      · exact (h.made x hx').imp_left (List.mem_append_left _)
    · intro x hx
      show x ∈ Line.labelNames (s.lines ++ [Line.label name span]) ∧ Label.IsForeign x
      rcases List.mem_append.mp hx with hx | hx
      · obtain ⟨hthere, hforeign⟩ := h.user x hx
        exact ⟨by simp [hthere], hforeign⟩
      · obtain rfl := List.mem_singleton.mp hx
        exact ⟨by simp, hname⟩
    · intro x hx hgen
      have hx' : x ∈ Line.listSymbols s.lines := by simpa [placeLabel] using hx
      show x ∈ Line.labelNames (s.lines ++ [Line.label name span]) ++ pending ∨ K x
      rw [hnames]
      refine (h.known x hx' hgen).imp_left fun hx => ?_
      exact List.perm_middle.mem_iff.mpr (List.mem_cons_of_mem _ hx)

/-- Promised labels are missing, so the clean-up places all of them. -/
theorem placeMissing {names : List String} (h : s.Labelled there (names ++ pending) K)
    (span : Span) : (s.placeMissing names span).Labelled there pending K := by
  induction names generalizing s with
  | nil => exact h
  | cons n names ih =>
    have hmissing : Line.hasLabel n s.lines = false := by
      rw [Bool.eq_false_iff, ne_eq, Line.hasLabel_iff]
      intro hmem
      exact (List.nodup_append.mp h.nodup).2.2 n hmem n List.mem_cons_self rfl
    show (FnState.placeMissing (if Line.hasLabel n s.lines then s else s.placeLabel n span)
      names span).Labelled there pending K
    rw [hmissing]
    exact ih (h.place span)

end Labelled

end FnState

/-! ## Blocks -/

namespace Block

/-- The labels that an open block has promised. -/
def promised : Block → List String
  | ifBlock _ elseLabel endLabel elseSeen _ =>
    if elseSeen then [endLabel] else [elseLabel, endLabel]
  | whileBlock _ _ _ test => [test]
  | repeatBlock _ _ => []
  | selectBlock _ endLabel next _ _ _ _ => next.toList ++ [endLabel]
  | broken _ => []

/-- The labels of an open block that are placed already. -/
def placed : Block → List String
  | ifBlock _ elseLabel _ elseSeen _ => if elseSeen then [elseLabel] else []
  | whileBlock _ _ top _ => [top]
  | repeatBlock _ top => [top]
  | selectBlock .. => []
  | broken _ => []

end Block

namespace Body

open FnState

/-- The labels of the open blocks are placed or promised as they should be;
    those in `there` are placed and those in `outer` promised beside them. -/
def Sound (there outer : List String) (K : String → Prop) (b : Body) : Prop :=
  b.fn.Labelled (b.blocks.flatMap Block.placed ++ there)
    (b.blocks.flatMap Block.promised ++ outer) K

variable {there outer : List String} {K : String → Prop} {b : Body} (r : Resolver) (span : Span)

namespace Sound

/-- The innermost block with its labels. -/
theorem inner (h : b.Sound there outer K) {k : Block} {rest : List Block}
    (hb : b.blocks = k :: rest) :
    b.fn.Labelled (k.placed ++ (rest.flatMap Block.placed ++ there))
      (k.promised ++ (rest.flatMap Block.promised ++ outer)) K := by
  simpa [Sound, hb] using h

/-- Fewer labels may count as placed. -/
theorem mono {there' : List String} (h : b.Sound there outer K) (ht : there' ⊆ there) :
    b.Sound there' outer K :=
  h.perm (List.append_subset.mpr
    ⟨List.subset_append_left _ _, List.Subset.trans ht (List.subset_append_right _ _)⟩) (.refl _)

theorem report (h : b.Sound there outer K) (p : Problem) :
    { b with fn := b.fn.report p span : Body }.Sound there outer K :=
  h.adds (b.fn.adds_report p span)

end Sound

/-! ### Openings -/

theorem sound_openIf (h : b.Sound there outer K) (cond : String) (malformed : Bool) :
    (b.openIf r cond malformed span).Sound there outer K := by
  unfold openIf
  split
  · exact h
  split
  · rename_i s hs
    exact h.adds (b.fn.adds_condition hs)
  · rename_i cc _
    have helse := h.fresh "if_else" (by decide)
    have hboth := (helse.fresh "if_end" (by decide)).perm (.refl _) (.swap _ _ _)
    exact hboth.branch r span cc.negate (.inr List.mem_cons_self)

theorem sound_openWhile (h : b.Sound there outer K) (cond : String) (malformed : Bool) :
    (b.openWhile r cond malformed span).Sound there outer K := by
  unfold openWhile
  split
  · exact h
  split
  · rename_i s hs
    exact h.adds (b.fn.adds_condition hs)
  · have htop := h.fresh "while_top" (by decide)
    have hboth := (htop.fresh "while_cond" (by decide)).perm (.refl _) (.swap _ _ _)
    have hjump := hboth.goto r span (List.mem_cons_of_mem _ List.mem_cons_self)
    exact (hjump.placed span).adds (adds_resume _ _ _)

theorem sound_openRepeat (h : b.Sound there outer K) (malformed : Bool) :
    (b.openRepeat malformed span).Sound there outer K := by
  unfold openRepeat
  split
  · exact h
  · exact (h.fresh "repeat_top" (by decide)).placed span

theorem sound_openSelect (h : b.Sound there outer K) : (b.openSelect span).Sound there outer K :=
  h.fresh "select_end" (by decide)

/-! ### Arms -/

/-- Closing an arm of a select places the label at which its values go on. -/
theorem labelled_closeArm {s : FnState} {pending : List String} {endLabel : String}
    {next : Option String} (h : s.Labelled there (next.toList ++ [endLabel] ++ pending) K)
    (armOpen : Bool) (exits : List Depth) :
    (closeArm r span endLabel next armOpen exits s).2.Labelled there (endLabel :: pending) K := by
  have hmem : endLabel ∈ next.toList ++ [endLabel] ++ pending := by simp
  have hjump := h.goto r span hmem
  unfold closeArm
  by_cases hlive : (armOpen && s.tracker.live) = true
  · rw [if_pos hlive]
    cases next with
    | none => exact hjump
    | some label => exact hjump.place span
  · rw [if_neg hlive]
    cases next with
    | none => exact h
    | some label => exact h.place span

theorem sound_elseArm (h : b.Sound there outer K) : (b.elseArm r span).Sound there outer K := by
  unfold elseArm
  split
  · exact h
  · exact h
  · rename_i o elseLabel endLabel elseSeen exits rest hb
    split
    · exact h.report span _
    · rename_i hseen
      obtain rfl : elseSeen = false := Bool.eq_false_iff.mpr hseen
      -- A live arm first jumps over the other one.
      have hjump : Labelled (rest.flatMap Block.placed ++ there)
          (elseLabel :: endLabel :: (rest.flatMap Block.promised ++ outer)) K
          (if b.fn.tracker.live then b.fn.jump r span [.ofName endLabel] else b.fn) := by
        split
        · exact (h.inner hb).goto r span (by simp [Block.promised])
        · exact h.inner hb
      exact (hjump.placed span).adds (adds_resume _ _ _)
  · rename_i o endLabel next elseSeen armOpen exits values rest hb
    split
    · exact h.report span _
    · exact (labelled_closeArm r span (h.inner hb) armOpen exits).adds (adds_resume _ _ _)
  · exact h.report span _

theorem adds_caseValues (seen : List Int64) (es : List Expr) (s : FnState) :
    Adds K s (caseValues r span seen es s).2 := by
  fun_induction caseValues r span seen es s with
  | case1 => exact .refl _
  | case2 _ _ _ s _ _ ih => exact (s.adds_report _ _).trans ih
  | case3 _ _ _ s _ _ _ ih => exact (s.adds_report _ _).trans ih
  | case4 _ _ _ s _ _ _ _ _ ih => exact (s.adds_report _ _).trans ih
  | case5 _ _ _ _ _ _ _ _ _ _ _ heq ih => rwa [heq] at ih

/-- The test of a case names its labels and conditions only. -/
theorem names_compareCode (arm next : String) (vs : List Int64) {i : Instruction}
    (hi : i ∈ compareCode arm next vs) {x : String} (hx : x ∈ i.names) :
    x ∈ ["z", "nz", arm, next] := by
  fun_induction compareCode arm next vs with
  | case1 =>
    obtain rfl := List.mem_singleton.mp hi
    simp_all
  | case2 v =>
    simp only [List.mem_cons, List.not_mem_nil, or_false] at hi
    rcases hi with rfl | rfl <;> simp_all
    rcases hx with rfl | rfl <;> simp
  | case3 v vs _ ih =>
    simp only [List.cons_append, List.nil_append, List.mem_cons] at hi
    rcases hi with rfl | rfl | hi
    · simp at hx
    · simp at hx
      rcases hx with rfl | rfl <;> simp
    · exact ih hi

theorem labelled_testCase {s : FnState} {pending : List String} {next : String}
    (h : s.Labelled there (next :: pending) K) (vs : List Int64) :
    (testCase r span next vs s).Labelled there (next :: pending) K := by
  -- The comparisons may jump to the arm, too, if that is known.
  have hcode : ∀ {s : FnState} {pending : List String} (arm : String),
      (arm = "" ∨ arm ∈ pending) → next ∈ pending → s.Labelled there pending K →
        (s.emitAll r span (compareCode arm next vs)).Labelled there pending K := by
    intro s pending arm harm hnext h
    refine h.adds (s.adds_emitAll ?_ r span)
    intro i hi
    apply Instruction.Asks.of_names
    intro x hx hgen
    have hnames := names_compareCode arm next vs hi hx
    simp only [List.mem_cons, List.not_mem_nil, or_false] at hnames
    rcases hnames with rfl | rfl | rfl | rfl
    · exact absurd hgen (by decide)
    · exact absurd hgen (by decide)
    · rcases harm with rfl | harm
      · exact absurd hgen (by decide)
      · exact .inl (List.mem_append_right _ harm)
    · exact .inl (List.mem_append_right _ hnext)
  unfold testCase
  split
  · exact hcode "" (.inl rfl) List.mem_cons_self h
  · have harm := h.fresh "select_arm" (by decide)
    exact (hcode _ (.inr List.mem_cons_self) (by simp) harm).place span

theorem sound_caseArm (h : b.Sound there outer K) (es : List Expr) :
    (b.caseArm r es span).Sound there outer K := by
  unfold caseArm
  split
  · exact h
  · rename_i o endLabel next elseSeen armOpen exits values rest hb
    split
    · exact h.report span _
    · have hclosed := labelled_closeArm r span (h.inner hb) armOpen exits
      have hvalues := (hclosed.adds (adds_resume _ o.depth o.live)).adds
        (adds_caseValues r span values es _)
      exact labelled_testCase r span (hvalues.fresh "select_next" (by decide)) _
  · exact h.report span _

/-! ### Ends -/

theorem sound_endBlock (h : b.Sound there outer K) : (b.endBlock r span).Sound there outer K := by
  unfold endBlock
  split
  · exact h.report span _
  · exact h
  · exact h.report span _
  · rename_i kind rest _ hb
    exact h.inner hb
  · rename_i o elseLabel endLabel elseSeen exits rest hb
    have hlabelled : (if elseSeen then b.fn else b.fn.placeLabel elseLabel span).Labelled
        (rest.flatMap Block.placed ++ there) (endLabel :: (rest.flatMap Block.promised ++ outer))
        K := by
      cases elseSeen with
      | true => exact (h.inner hb).perm (List.subset_cons_self _ _) (.refl _)
      | false => exact (h.inner hb).place span
    exact (hlabelled.place span).adds (adds_join _ _ _ _)
  · rename_i o cond top test rest hb
    have hjoin := ((h.inner hb).place span).adds
      (adds_join _ .whileBackEdge span (o.reached ++ b.fn.reached))
    exact (hjoin.branch r span cond (.inl List.mem_cons_self)).perm (List.subset_cons_self _ _)
      (.refl _)
  · rename_i o endLabel next elseSeen armOpen exits values rest hb
    have hlabelled := h.inner hb
    cases next with
    | none => exact (hlabelled.place span).adds (adds_join _ _ _ _)
    | some label => exact ((hlabelled.place span).place span).adds (adds_join _ _ _ _)

theorem sound_untilClose (h : b.Sound there outer K) (cond : String) :
    (b.untilClose r cond span).Sound there outer K := by
  unfold untilClose
  split
  · rename_i rest hb
    exact h.inner hb
  · rename_i o top rest hb
    have hjoin := (h.inner hb).adds
      (adds_join _ .repeatBackEdge span (o.reached ++ b.fn.reached))
    refine Labelled.perm ?_ (List.subset_cons_self top _) (.refl _)
    dsimp only
    split
    · rename_i s hs
      exact hjoin.adds (adds_condition _ hs)
    · rename_i cc _
      exact hjoin.branch r span cc.negate (.inl List.mem_cons_self)
  · exact h.report span _

/-- The clean-up of a block that is still open keeps its promises. -/
theorem labelled_closeBlock {s : FnState} {k : Block} {pending : List String}
    (h : s.Labelled (k.placed ++ there) (k.promised ++ pending) K) :
    (closeBlock s k).Labelled there pending K := by
  refine Labelled.perm ?_ (List.subset_append_right k.placed there) (.refl _)
  cases k with
  | broken kind => exact h
  | repeatBlock o top =>
    exact h.adds (s.adds_report (.control (.unterminated .repeatBlock)) o.span)
  | whileBlock o cond top test => exact (h.adds (s.adds_report _ o.span)).placeMissing o.span
  | selectBlock o endLabel next elseSeen armOpen exits values =>
    exact (h.adds (s.adds_report _ o.span)).placeMissing o.span
  | ifBlock o elseLabel endLabel elseSeen exits =>
    have hreport := h.adds (s.adds_report (.control (.unterminated .ifBlock)) o.span)
    cases elseSeen with
    | false => exact hreport.placeMissing o.span
    | true =>
      have hthere : Line.hasLabel elseLabel
          (s.report (.control (.unterminated .ifBlock)) o.span).lines = true :=
        Line.hasLabel_iff.mpr (hreport.there List.mem_cons_self)
      show (FnState.placeMissing (if Line.hasLabel elseLabel _ then _ else _) [endLabel]
        o.span).Labelled _ pending K
      rw [if_pos hthere]
      exact hreport.placeMissing o.span

/-- The end of a body keeps all the promises of its blocks. -/
theorem labelled_close (h : b.Sound there outer K) : b.close.Labelled there outer K := by
  obtain ⟨s, blocks⟩ := b
  show (blocks.foldl closeBlock s).Labelled there outer K
  induction blocks generalizing s with
  | nil => exact h
  | cons k rest ih => exact ih _ (labelled_closeBlock (h.inner rfl))

end Body

end Z80Backend
