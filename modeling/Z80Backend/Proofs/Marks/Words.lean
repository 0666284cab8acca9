import Z80Backend.Proofs.Marks.Steps

/-! # Marks and the words of structured control

    `Body.Grounded` is the invariant of the states between two statements.  One
    lemma for each word that opens, divides or closes a block: the state stays
    grounded, and marks fit the lines that the word adds.  The labels that a
    word places get the mark that the tracker goes on with, and where paths
    join, that is the mark of each of them.

    Loops lead back to their top, whose mark was made when they were opened, and
    the tests of a select go on from its opening.  Both are right only if control
    does not come to their end in another way (`Body.Enters`). -/

namespace Z80Backend

/-! ## The invariant -/

namespace Block

/-- The arm behind `else` is the last one of a select, and before the first arm
    there are no ends of arms. -/
def Shaped : Block → Prop
  | selectBlock _ _ next elseSeen armOpen ds _ =>
    (elseSeen = true → armOpen = true ∧ next = none) ∧ (armOpen = false → ds = [])
  | _ => True

/-- Control is inside a block only if it came there.  It goes on in a block that
    could not be read as if there were none. -/
def Rooted (base : Bool) : Bool → List Block → Prop
  | live, [] => live = true → base = true
  | live, k :: ks =>
    match k.opening? with
    | none => Rooted base live ks
    | some o => (live = true ∨ k.exits ≠ [] → o.live = true) ∧ Rooted base o.live ks

theorem Rooted.mono {base live live' : Bool} {ks : List Block} (h : Rooted base live ks)
    (hlive : live' = true → live = true) : Rooted base live' ks := by
  induction ks with
  | nil => exact fun h' => h (hlive h')
  | cons k ks ih =>
    unfold Rooted at h ⊢
    cases hk : k.opening? with
    | none =>
      rw [hk] at h
      exact ih h
    | some o =>
      rw [hk] at h
      exact ⟨fun h' => h.1 (h'.imp_left hlive), h.2⟩

theorem rooted_cons {base live : Bool} {k : Block} {ks : List Block} {o : Opening}
    (hk : k.opening? = some o) :
    Rooted base live (k :: ks) ↔
      (live = true ∨ k.exits ≠ [] → o.live = true) ∧ Rooted base o.live ks := by
  rw [Rooted, hk]

end Block

/-- The state between two statements.  `base` tells whether control came to the
    body. -/
structure Body.Grounded {α : Type} (T : Marking α) (base : Bool) (b : Body) : Prop where
  rooted : T.bare → Block.Rooted base b.fn.tracker.live b.blocks
  inBounds : b.fn.InBounds T
  recorded : ∀ k ∈ b.blocks, ∀ a, k.Records T a → T.Within b.fn.lines.length a
  shaped : ∀ k ∈ b.blocks, k.Shaped
  made : ∀ k ∈ b.blocks, ∀ name ∈ k.pending, ¬ Label.IsForeign name

namespace Body.Grounded

variable {α : Type} {T : Marking α} {base : Bool} {b : Body} {k k' : Block} {ks : List Block}
  {o : Opening} {ls : List Line} {t : Tracker} {n : Int}

/-- A body that was not started yet. -/
theorem start {s : FnState} (h : s.InBounds T) : Grounded T s.tracker.live { fn := s } where
  rooted _ := id
  inBounds := h
  recorded _ hk := by cases hk
  shaped _ hk := by cases hk
  made _ hk := by cases hk

/-- What is done inside a body keeps it grounded. -/
theorem moves {s : FnState} (h : b.Grounded T base) (hs : b.fn.Moves T s) :
    Grounded T base { b with fn := s } where
  rooted hbare := (h.rooted hbare).mono (hs.live hbare)
  inBounds := hs.inBounds h.inBounds
  recorded k hk a ha := hs.advances.within (h.recorded k hk a ha)
  shaped := h.shaped
  made := h.made

/-- A step that adds lines and changes the innermost blocks keeps a body
    grounded. -/
theorem grow (js js' : List Block) (marks : List (String × Option α)) (new : List String)
    (h : b.Grounded T base) (hb : b.blocks = js ++ ks)
    (hrooted : T.bare → Block.Rooted base t.live (js' ++ ks))
    (hbounds : ∀ a, T.mark t = some a → T.Within b.fn.lines.length a)
    (hrecorded : ∀ k ∈ js', ∀ a, k.Records T a → T.Within b.fn.lines.length a)
    (hshaped : ∀ k ∈ js', k.Shaped) (hle : b.fn.counter ≤ n)
    (hnamed : marks.map Prod.fst = Line.labelNames ls)
    (hfresh : Label.Between b.fn.counter n new)
    (hperm : (Line.labelNames ls ++ js'.flatMap Block.pending).Perm
      (new ++ js.flatMap Block.pending))
    (hknown : ∀ Λ, (∀ x ∈ marks, Λ x.1 = x.2) → (∀ k ∈ js, k.Known T Λ) → ∀ k ∈ js', k.Known T Λ)
    (hflow : ∀ Λ, T.Fits Λ → (∀ x ∈ marks, Λ x.1 = x.2) → (∀ k ∈ js, k.Known T Λ) →
      (∀ k ∈ js', k.Awaits T Λ) →
      (∀ k ∈ js, k.Awaits T Λ) ∧
        T.Flow Λ b.fn.lines.length (T.mark b.fn.tracker) ls (T.mark t)) :
    Grounded T base { fn := b.fn.grow ls t n, blocks := js' ++ ks } ∧
      b.Advances T { fn := b.fn.grow ls t n, blocks := js' ++ ks } := by
  obtain ⟨fn, blocks⟩ := b
  cases hb
  have hwithin : ∀ a, T.Within fn.lines.length a → T.Within (fn.grow ls t n).lines.length a := by
    intro a ha
    refine T.within_mono ha ?_
    rw [FnState.grow_lines, List.length_append]
    omega
  obtain ⟨hmade, hmade'⟩ := List.forall_mem_append.mp h.made
  -- the labels of the lines are new, or were waited for
  have hnew : ∀ name ∈ Line.labelNames ls ++ js'.flatMap Block.pending,
      ¬ Label.IsForeign name := by
    intro name hname
    rcases List.mem_append.mp (hperm.mem_iff.mp hname) with hname | hname
    · exact hfresh.not_isForeign name hname
    · obtain ⟨k, hk, hname⟩ := List.mem_flatMap.mp hname
      exact hmade k hk name hname
  obtain ⟨hplaced, hwaited⟩ := List.forall_mem_append.mp hnew
  have hadvances : Advances T { fn, blocks := js } { fn := fn.grow ls t n, blocks := js' } := by
    refine ⟨ls, marks, new, ?_⟩
    exact
      { lines := rfl
        named := hnamed
        user := fun x hx hforeign =>
          absurd hforeign (hplaced x.1 (hnamed ▸ List.mem_map_of_mem hx))
        counter := fun _ => hle
        fresh := fun _ => hfresh
        perm := hperm
        known := hknown
        flow := hflow }
  refine ⟨⟨hrooted, fun a ha => hwithin a (hbounds a ha), ?_, ?_, ?_⟩, hadvances.under ks⟩
  · refine List.forall_mem_append.mpr ⟨fun k hk a ha => hwithin a (hrecorded k hk a ha), ?_⟩
    exact fun k hk a ha => hwithin a (h.recorded k (List.mem_append_right _ hk) a ha)
  · exact List.forall_mem_append.mpr ⟨hshaped, (List.forall_mem_append.mp h.shaped).2⟩
  · refine List.forall_mem_append.mpr ⟨fun k hk name hname => ?_, hmade'⟩
    exact hwaited name (List.mem_flatMap.mpr ⟨k, hk, hname⟩)

theorem opened {span : Span} (marks : List (String × Option α)) (new : List String)
    (h : b.Grounded T base) (hk : k.opening? = some (b.fn.opening span)) (hexits : k.exits = [])
    (hshaped : k.Shaped) (hle : b.fn.counter ≤ n)
    (hnamed : marks.map Prod.fst = Line.labelNames ls)
    (hfresh : Label.Between b.fn.counter n new) (hperm : Line.labelNames ls ++ k.pending = new)
    (hknown : ∀ Λ, (∀ x ∈ marks, Λ x.1 = x.2) → k.Known T Λ)
    (hflow : ∀ Λ, T.Fits Λ → (∀ x ∈ marks, Λ x.1 = x.2) → k.Awaits T Λ →
      T.Flow Λ b.fn.lines.length (T.mark b.fn.tracker) ls (T.mark b.fn.tracker)) :
    Grounded T base { fn := b.fn.grow ls b.fn.tracker n, blocks := k :: b.blocks } ∧
      b.Advances T { fn := b.fn.grow ls b.fn.tracker n, blocks := k :: b.blocks } := by
  refine h.grow [] [k] marks new rfl (fun hbare => ?_) h.inBounds ?_
    (List.forall_mem_singleton.mpr hshaped) hle hnamed hfresh ?_ ?_ ?_
  · refine (Block.rooted_cons hk).mpr ⟨?_, h.rooted hbare⟩
    rintro (hlive | hne)
    · exact hlive
    · exact absurd hexits hne
  · refine List.forall_mem_singleton.mpr fun a ha => ?_
    rcases ha with ⟨o, ho, ha⟩ | ha
    · cases hk.symm.trans ho
      exact h.inBounds a ha
    · rw [hexits] at ha
      cases ha
  · simp [hperm]
  · exact fun Λ hmarks _ => List.forall_mem_singleton.mpr (hknown Λ hmarks)
  · exact fun Λ hΛ hmarks _ hk =>
      ⟨List.forall_mem_nil _, hflow Λ hΛ hmarks (List.forall_mem_singleton.mp hk)⟩

section

variable (h : b.Grounded T base) (hb : b.blocks = k :: ks) (hk : k.opening? = some o)

include h hb hk

/-- The marks that a body has recorded for its innermost block. -/
theorem within_recorded {a : α}
    (ha : T.entry o = some a ∨ a ∈ k.exits.map T.ofDepth ∨ T.mark b.fn.tracker = some a) :
    T.Within b.fn.lines.length a := by
  have hmem : k ∈ b.blocks := hb ▸ List.mem_cons_self
  rcases ha with ha | ha | ha
  · exact h.recorded k hmem a (.inl ⟨o, hk, ha⟩)
  · exact h.recorded k hmem a (.inr ha)
  · exact h.inBounds a ha

/-- Control came to the innermost block if it comes to any point of it. -/
theorem entered (hbare : T.bare) {a : α}
    (ha : T.entry o = some a ∨ a ∈ k.exits.map T.ofDepth ∨ T.mark b.fn.tracker = some a) :
    o.live = true := by
  have hrooted := h.rooted hbare
  rw [hb, Block.rooted_cons hk] at hrooted
  rcases ha with ha | ha | ha
  · exact (Marking.entry_eq_some.mp ha).1
  · exact hrooted.1 (.inr fun hnil => by simp [hnil] at ha)
  · exact hrooted.1 (.inl (Marking.mark_eq_some.mp ha).1)

/-- The body goes on to another arm of its innermost block. -/
theorem rearmed (marks : List (String × Option α)) (new : List String)
    (hk' : k'.opening? = some o)
    (hexits : ∀ a ∈ k'.exits.map T.ofDepth,
      a ∈ k.exits.map T.ofDepth ∨ T.mark b.fn.tracker = some a)
    (ht : ∀ a, T.mark t = some a → T.entry o = some a)
    (hshaped : k'.Shaped) (hle : b.fn.counter ≤ n)
    (hnamed : marks.map Prod.fst = Line.labelNames ls)
    (hfresh : Label.Between b.fn.counter n new)
    (hperm : (Line.labelNames ls ++ k'.pending).Perm (new ++ k.pending))
    (hknown : ∀ Λ, k'.Known T Λ)
    (hflow : ∀ Λ, T.Fits Λ → (∀ x ∈ marks, Λ x.1 = x.2) → k'.Awaits T Λ →
      k.Awaits T Λ ∧ T.Flow Λ b.fn.lines.length (T.mark b.fn.tracker) ls (T.mark t)) :
    Grounded T base { fn := b.fn.grow ls t n, blocks := k' :: ks } ∧
      b.Advances T { fn := b.fn.grow ls t n, blocks := k' :: ks } := by
  refine h.grow [k] [k'] marks new hb (fun hbare => ?_)
    (fun a ha => h.within_recorded hb hk (.inl (ht a ha))) ?_
    (List.forall_mem_singleton.mpr hshaped) hle hnamed hfresh (by simpa using hperm) ?_ ?_
  · have hrooted := h.rooted hbare
    rw [hb, Block.rooted_cons hk] at hrooted
    refine (Block.rooted_cons hk').mpr ⟨?_, hrooted.2⟩
    rintro (hlive | hne)
    · exact (Marking.entry_eq_some.mp (ht _ (Marking.mark_eq_some.mpr ⟨hlive, rfl⟩))).1
    · obtain ⟨d, hd⟩ := List.exists_mem_of_ne_nil _ hne
      exact h.entered hb hk hbare (.inr (hexits _ (List.mem_map_of_mem hd)))
  · refine List.forall_mem_singleton.mpr fun a ha => h.within_recorded hb hk ?_
    refine ha.imp (fun ⟨o', ho', ha⟩ => ?_) (hexits a)
    cases hk'.symm.trans ho'
    exact ha
  · exact fun Λ _ _ => List.forall_mem_singleton.mpr (hknown Λ)
  · intro Λ hΛ hmarks _ hawaits
    obtain ⟨hbefore, hlines⟩ := hflow Λ hΛ hmarks (List.forall_mem_singleton.mp hawaits)
    exact ⟨List.forall_mem_singleton.mpr hbefore, hlines⟩

theorem closed (marks : List (String × Option α))
    (ht : ∀ a, T.mark t = some a →
      T.entry o = some a ∨ a ∈ k.exits.map T.ofDepth ∨ T.mark b.fn.tracker = some a)
    (hnamed : marks.map Prod.fst = Line.labelNames ls) (hpending : Line.labelNames ls = k.pending)
    (hflow : ∀ Λ, T.Fits Λ → (∀ x ∈ marks, Λ x.1 = x.2) → k.Known T Λ →
      k.Awaits T Λ ∧ T.Flow Λ b.fn.lines.length (T.mark b.fn.tracker) ls (T.mark t)) :
    Grounded T base { fn := b.fn.grow ls t b.fn.counter, blocks := ks } ∧
      b.Advances T { fn := b.fn.grow ls t b.fn.counter, blocks := ks } := by
  refine h.grow [k] [] marks [] hb (fun hbare => ?_)
    (fun a ha => h.within_recorded hb hk (ht a ha)) (List.forall_mem_nil _) (List.forall_mem_nil _)
    (Int.le_refl _) hnamed .nil (by simp [hpending]) (fun _ _ _ => List.forall_mem_nil _) ?_
  · have hrooted := h.rooted hbare
    rw [hb, Block.rooted_cons hk] at hrooted
    refine hrooted.2.mono fun hlive => ?_
    exact h.entered hb hk hbare (ht _ (Marking.mark_eq_some.mpr ⟨hlive, rfl⟩))
  · intro Λ hΛ hmarks hknown _
    obtain ⟨hbefore, hlines⟩ := hflow Λ hΛ hmarks (List.forall_mem_singleton.mp hknown)
    exact ⟨List.forall_mem_singleton.mpr hbefore, hlines⟩

end

/-! ## Blocks that could not be read -/

theorem openBroken (h : b.Grounded T base) (kind : BlockKind) :
    (b.openBroken b.fn kind).Grounded T base ∧ b.Advances T (b.openBroken b.fn kind) where
  left :=
    { rooted := h.rooted
      inBounds := h.inBounds
      recorded := List.forall_mem_cons.mpr
        ⟨fun a ha => ha.elim (fun ⟨_, ho, _⟩ => nomatch ho) nofun, h.recorded⟩
      shaped := List.forall_mem_cons.mpr ⟨trivial, h.shaped⟩
      made := List.forall_mem_cons.mpr ⟨List.forall_mem_nil _, h.made⟩ }
  right := by
    refine .of_blocks rfl rfl (fun _ => Int.le_refl _) rfl (fun Λ hknown => ?_) fun Λ hawaits => ?_
    · exact List.forall_mem_cons.mpr ⟨trivial, hknown⟩
    · exact (List.forall_mem_cons.mp hawaits).2

theorem closeBroken {kind : BlockKind} (h : b.Grounded T base)
    (hb : b.blocks = .broken kind :: ks) :
    ({ b with blocks := ks } : Body).Grounded T base ∧ b.Advances T { b with blocks := ks } := by
  obtain ⟨fn, blocks⟩ := b
  cases hb
  refine ⟨⟨h.rooted, h.inBounds, (List.forall_mem_cons.mp h.recorded).2,
    (List.forall_mem_cons.mp h.shaped).2, (List.forall_mem_cons.mp h.made).2⟩, ?_⟩
  refine .of_blocks rfl rfl (fun _ => Int.le_refl _) rfl (fun Λ hknown => ?_) fun Λ hawaits => ?_
  · exact (List.forall_mem_cons.mp hknown).2
  · exact List.forall_mem_cons.mpr ⟨trivial, hawaits⟩

/-! ## Openings -/

variable {r : Resolver} {span : Span}

theorem openIf {cond : String} {malformed : Bool} (h : b.Grounded T base)
    (hclean : (b.openIf r cond malformed span).fn.Clean) :
    (b.openIf r cond malformed span).Grounded T base ∧
      b.Advances T (b.openIf r cond malformed span) := by
  cases malformed with
  | true => exact h.openBroken .ifBlock
  | false =>
    obtain ⟨cc, _, heq⟩ := openIf_of_clean hclean
    rw [heq]
    exact h.opened [] _ rfl rfl trivial (by omega) rfl (.two (by decide) (by decide) _) rfl
      (fun _ _ => trivial) fun Λ hΛ _ hif => T.branch hΛ (hif.1 rfl)

theorem openWhile {cond : String} {malformed : Bool} (h : b.Grounded T base)
    (hclean : (b.openWhile r cond malformed span).fn.Clean) :
    (b.openWhile r cond malformed span).Grounded T base ∧
      b.Advances T (b.openWhile r cond malformed span) := by
  cases malformed with
  | true => exact h.openBroken .whileBlock
  | false =>
    obtain ⟨cc, _, heq⟩ := openWhile_of_clean hclean
    rw [heq]
    refine h.opened [(Label.make "while_top" (b.fn.counter + 1), T.mark b.fn.tracker)] _ rfl rfl
      trivial (by omega) rfl (.two (by decide) (by decide) _) rfl (fun Λ hmarks a ha => ?_)
      fun Λ _ hmarks hwhile => ?_
    · exact (hmarks _ List.mem_cons_self).trans ha
    · -- nothing passes the jump to the test
      refine T.append (T.jump hwhile) (T.placed (hmarks _ List.mem_cons_self) nofun fun a ha => ?_)
      exact T.within_mono (h.inBounds a ha) (by omega)

theorem openRepeat {malformed : Bool} (h : b.Grounded T base) :
    (b.openRepeat malformed span).Grounded T base ∧
      b.Advances T (b.openRepeat malformed span) := by
  cases malformed with
  | true => exact h.openBroken .repeatBlock
  | false =>
    rw [openRepeat_eq]
    refine h.opened [(Label.make "repeat_top" (b.fn.counter + 1), T.mark b.fn.tracker)] _ rfl rfl
      trivial (by omega) rfl (.one (by decide) _) rfl (fun Λ hmarks a ha => ?_)
      fun Λ _ hmarks _ => T.placed (hmarks _ List.mem_cons_self) (fun _ ha => ha) h.inBounds
    exact (hmarks _ List.mem_cons_self).trans ha

theorem openSelect (h : b.Grounded T base) :
    (b.openSelect span).Grounded T base ∧ b.Advances T (b.openSelect span) := by
  rw [openSelect_eq]
  exact h.opened [] _ rfl rfl ⟨nofun, fun _ => rfl⟩ (by omega) rfl (.one (by decide) _) rfl
    (fun _ _ => trivial) fun _ _ _ _ => T.nil fun _ ha => ha

/-! ## Arms -/

/-- The jump that leaves an arm ends with a point that control does not come
    to. -/
theorem flow_leadLines {Λ : String → Option α} {p : Nat} {live : Bool} {m m' : Option α}
    {last : String} {ms : List Line} (hdead : live = false → m = none)
    (hlast : ∀ a, m = some a → Λ last = some a)
    (h : T.Flow Λ (p + (leadLines r live span last).length) none ms m') :
    T.Flow Λ p m (leadLines r live span last ++ ms) m' := by
  cases live with
  | false =>
    rw [hdead rfl]
    exact h
  | true => exact T.append (T.jump hlast) h

theorem elseArm_if {other last : String} {ds : List Depth} (h : b.Grounded T base)
    (hb : b.blocks = .ifBlock o other last false ds :: ks)
    (hclean : (b.elseArm r span).fn.Clean) :
    (b.elseArm r span).Grounded T base ∧ b.Advances T (b.elseArm r span) := by
  have heq := elseArm_if_of_clean hb hclean
  rw [heq]
  refine h.rearmed hb rfl [(other, T.entry o)] [] rfl ?_ (fun a ha => ha) trivial (Int.le_refl _)
    (by simp) .nil (by simp [Block.pending]) (fun _ => trivial) ?_
  · intro a ha
    rw [Block.exits, List.map_append] at ha
    exact (List.mem_append.mp ha).imp_right Marking.mem_reached.mp
  · intro Λ _ hmarks hif
    have hother : Λ other = T.entry o := hmarks _ List.mem_cons_self
    have hlast := fun a ha => hif.2 a (by rw [List.map_append]; exact ha)
    refine ⟨⟨fun _ a ha => hother.trans ha, fun a ha => hlast a (List.mem_append_left _ ha)⟩, ?_⟩
    refine flow_leadLines Marking.mark_of_dead (fun a ha => ?_)
      (T.placed hother nofun fun a ha => ?_)
    · exact hlast a (List.mem_append_right _ (Marking.mem_reached.mpr ha))
    · exact T.within_mono (h.within_recorded hb rfl (.inl ha)) (by omega)

section

variable {last : String} {next : Option String} {armOpen : Bool} {ds : List Depth}
  {vs : List Int64}

/-- The depths at the end of the arm that is left. -/
theorem mem_left {a : α} (ha : a ∈ (ds ++ (if armOpen && b.fn.tracker.live then
      [b.fn.tracker.depth] else [])).map T.ofDepth) :
    a ∈ ds.map T.ofDepth ∨ T.mark b.fn.tracker = some a := by
  rw [List.map_append] at ha
  refine (List.mem_append.mp ha).imp_right fun ha => ?_
  split at ha
  · rename_i hlive
    rw [List.map_singleton, List.mem_singleton] at ha
    exact Marking.mark_eq_some.mpr ⟨(Bool.and_eq_true_iff.mp hlive).2, ha.symm⟩
  · cases ha

variable (h : b.Grounded T base)
  (hb : b.blocks = .selectBlock o last next false armOpen ds vs :: ks)
  (henter : armOpen = false → ∀ a, T.mark b.fn.tracker = some a → T.entry o = some a)

include h hb henter

/-- The open arm is left, and the tests go on with the mark of the opening. -/
theorem flow_closeArm {Λ : String → Option α}
    (hnext : ∀ n, next = some n → Λ n = T.entry o)
    (hlast : ∀ a ∈ (ds ++ (if armOpen && b.fn.tracker.live then [b.fn.tracker.depth] else [])).map
      T.ofDepth, Λ last = some a) :
    T.Flow Λ b.fn.lines.length (T.mark b.fn.tracker)
      (leadLines r (armOpen && b.fn.tracker.live) span last ++ next.toList.map (Line.label · span))
      (T.entry o) := by
  -- the label of the next test stands behind the jump, if there is one
  have hlabel : ∀ p m, b.fn.lines.length ≤ p → (∀ a, m = some a → T.entry o = some a) →
      T.Flow Λ p m (next.toList.map (Line.label · span)) (T.entry o) := by
    intro p m hp hm
    cases next with
    | none => exact T.nil hm
    | some n =>
      refine T.placed (hnext n rfl) hm fun a ha => ?_
      exact T.within_mono (h.within_recorded hb rfl (.inl ha)) hp
  cases armOpen with
  | false => exact hlabel _ _ (Nat.le_refl _) (henter rfl)
  | true =>
    rw [Bool.true_and] at hlast ⊢
    refine flow_leadLines Marking.mark_of_dead (fun a ha => hlast a ?_)
      (hlabel _ _ (by omega) nofun)
    obtain ⟨hlive, rfl⟩ := Marking.mark_eq_some.mp ha
    simp [hlive]

theorem elseArm_select (hclean : (b.elseArm r span).fn.Clean) :
    (b.elseArm r span).Grounded T base ∧ b.Advances T (b.elseArm r span) := by
  have heq := elseArm_select_of_clean hb hclean
  rw [heq]
  refine h.rearmed hb rfl (next.toList.map (·, T.entry o)) [] rfl (fun a ha => mem_left ha)
    (fun a ha => ha) ⟨fun _ => ⟨rfl, rfl⟩, nofun⟩ (Int.le_refl _) ?_ .nil ?_ (fun _ => trivial) ?_
  · cases next <;> simp
  · cases next <;> simp [Block.pending]
  · intro Λ _ hmarks hselect
    have hnext : ∀ n, next = some n → Λ n = T.entry o := by
      rintro n rfl
      exact hmarks _ List.mem_cons_self
    refine ⟨⟨fun n hn a ha => (hnext n hn).trans ha, fun a ha => hselect.2 a ?_⟩,
      h.flow_closeArm hb henter hnext hselect.2⟩
    rw [List.map_append]
    exact List.mem_append_left _ ha

omit h hb henter in
/-- The tests of a case jump with the mark they are reached with. -/
theorem flow_compares {Λ : String → Option α} (hΛ : T.Fits Λ) {p : Nat} {m : Option α}
    {arm name : String} {ts : List Line} (hts : Compares r span arm name vs ts)
    (hnext : ∀ a, m = some a → Λ name = some a)
    (harm : 2 ≤ vs.length → ∀ a, m = some a → Λ arm = some a) :
    T.Flow Λ p m ts (if vs.isEmpty then none else m) := by
  induction hts generalizing p with
  | none => exact T.jump hnext
  | last v => exact T.append T.compare (T.branch hΛ hnext)
  | @more vs ls v hne _ ih =>
    have hlen : 2 ≤ (v :: vs).length := by
      have := List.length_pos_iff.mpr hne
      rw [List.length_cons]
      omega
    have hrest := fun p => ih (p := p) fun _ => harm hlen
    have hempty : vs.isEmpty = false := by simpa using hne
    simp only [hempty, List.isEmpty_cons, Bool.false_eq_true, if_false] at hrest ⊢
    exact T.append T.compare (T.append (T.branch hΛ (harm hlen)) (hrest _))

theorem caseArm {es : List Expr} (hclean : (b.caseArm r es span).fn.Clean) :
    (b.caseArm r es span).Grounded T base ∧ b.Advances T (b.caseArm r es span) := by
  obtain ⟨vs', arm, ts, al, hts, hal, _, heq⟩ := caseArm_of_clean hb hclean
  rw [heq]
  have hmark : T.mark { depth := o.depth, live := o.live && !vs'.isEmpty } =
      if vs'.isEmpty then none else T.entry o := by
    unfold Marking.mark Marking.entry
    cases vs'.isEmpty <;> simp
  generalize ({ depth := o.depth, live := o.live && !vs'.isEmpty } : Tracker) = t at hmark ⊢
  have hentry : ∀ a, T.mark t = some a → T.entry o = some a := by
    intro a ha
    rw [hmark] at ha
    split at ha
    · cases ha
    · exact ha
  have hfresh : Label.Between (b.fn.counter + 1) (b.fn.counter + 1 + al.length)
      (Line.labelNames al) := by
    rcases hal with ⟨rfl, _⟩ | ⟨rfl, rfl⟩
    · exact .nil
    · have harm : "select_arm" ∈ Label.kinds := by decide
      simpa [Int.add_assoc] using Label.Between.one harm (b.fn.counter + 1)
  refine h.rearmed hb rfl (next.toList.map (·, T.entry o) ++ (Line.labelNames al).map (·, T.mark t))
    ([Label.make "select_next" (b.fn.counter + 1)] ++ Line.labelNames al) rfl
    (fun a ha => mem_left ha) hentry ⟨nofun, nofun⟩ (by omega) ?_
    ((Label.Between.one (by decide) _).append hfresh (by omega) (by omega)) ?_ (fun _ => trivial) ?_
  · cases next <;> simp [hts.labelNames, Function.comp_def]
  · cases next with
    | none => simp [Block.pending, hts.labelNames]
    | some n =>
      simp only [Line.labelNames_append, labelNames_leadLines, hts.labelNames, Block.pending,
        Option.toList_some, List.map_cons, List.map_nil, Line.labelNames_label, List.nil_append,
        List.cons_append]
      exact (List.perm_middle.cons n).trans ((List.Perm.swap _ _ _).trans
        (List.perm_middle.symm.cons _))
  · intro Λ hΛ hmarks hselect
    have hnext : ∀ n, next = some n → Λ n = T.entry o := by
      rintro n rfl
      exact hmarks _ List.mem_cons_self
    refine ⟨⟨fun n hn a ha => (hnext n hn).trans ha, fun a ha => hselect.2 a ?_⟩, ?_⟩
    · rw [List.map_append]
      exact List.mem_append_left _ ha
    · refine T.append (h.flow_closeArm hb henter hnext hselect.2) ?_
      have harm : al ≠ [] → Λ arm = T.mark t := by
        intro hne
        rcases hal with ⟨rfl, _⟩ | ⟨_, rfl⟩
        · exact absurd rfl hne
        · exact hmarks _ (List.mem_append_right _ List.mem_cons_self)
      refine T.append (flow_compares hΛ hts (hselect.1 _ rfl) fun hlen a ha => ?_) ?_
      · rcases hal with ⟨rfl, hle⟩ | ⟨_, rfl⟩
        · omega
        · have hempty : vs'.isEmpty = false := by
            rw [List.isEmpty_eq_false_iff]
            rintro rfl
            simp at hlen
          rw [harm (by simp), hmark, hempty]
          exact ha
      · rw [← hmark]
        rcases hal with ⟨rfl, _⟩ | ⟨_, rfl⟩
        · exact T.nil fun _ ha => ha
        · refine T.placed (harm (by simp)) (fun _ ha => ha) fun a ha => ?_
          exact T.within_mono (h.within_recorded hb rfl (.inl (hentry a ha))) (by omega)

end

/-! ## Ends -/

/-- Labels that stand together at the end of a block have the joined mark. -/
theorem flow_labels {Λ : String → Option α} {p : Nat} {m m' : Option α} {names : List String}
    (hm : ∀ a, m = some a → m' = some a) (hnames : ∀ name ∈ names, Λ name = m')
    (hwithin : ∀ a, m' = some a → T.Within p a) :
    T.Flow Λ p m (names.map (Line.label · span)) m' := by
  induction names generalizing p m with
  | nil => exact T.nil hm
  | cons name names ih =>
    refine T.append (T.placed (hnames name List.mem_cons_self) hm hwithin) ?_
    exact ih (fun _ ha => ha) (fun x hx => hnames x (List.mem_cons_of_mem name hx))
      fun a ha => T.within_mono (hwithin a ha) (Nat.le_add_right _ _)

/-- A block ends where its labels stand and all of its paths join. -/
theorem ended {es : List Depth} (h : b.Grounded T base) (hb : b.blocks = k :: ks)
    (hk : k.opening? = some o) (hall : ∀ d ∈ es, ∀ d' ∈ es, d = d')
    (hmem : ∀ a ∈ es.map T.ofDepth,
      T.entry o = some a ∨ a ∈ k.exits.map T.ofDepth ∨ T.mark b.fn.tracker = some a)
    (hin : ∀ a, T.mark b.fn.tracker = some a → a ∈ es.map T.ofDepth)
    (hawaits : ∀ Λ : String → Option α,
      (∀ name ∈ k.pending, ∀ a ∈ es.map T.ofDepth, Λ name = some a) → k.Awaits T Λ) :
    let s := b.fn.grow (k.pending.map (Line.label · span)) (joined b.fn.tracker es) b.fn.counter
    Grounded T base { fn := s, blocks := ks } ∧ b.Advances T { fn := s, blocks := ks } := by
  have hjoined := fun a ha => hmem a (Marking.mem_of_mark_joined (t := b.fn.tracker) ha)
  refine h.closed hb hk (k.pending.map (·, T.mark (joined b.fn.tracker es))) hjoined ?_ ?_ ?_
  · simp [Line.labelNames, List.filterMap_map, Function.comp_def, Line.labelName?]
  · simp [Line.labelNames, List.filterMap_map, Function.comp_def, Line.labelName?]
  · intro Λ _ hmarks _
    have hnames : ∀ name ∈ k.pending, Λ name = T.mark (joined b.fn.tracker es) := by
      intro name hname
      exact hmarks _ (List.mem_map_of_mem hname)
    refine ⟨hawaits Λ fun name hname a ha => ?_, ?_⟩
    · rw [hnames name hname, Marking.mark_joined hall ha]
    · exact flow_labels (fun a ha => Marking.mark_joined hall (hin a ha)) hnames
        fun a ha => h.within_recorded hb hk (hjoined a ha)

theorem endBlock_if {other last : String} {elseSeen : Bool} {ds : List Depth}
    (h : b.Grounded T base) (hb : b.blocks = .ifBlock o other last elseSeen ds :: ks)
    (hclean : (b.endBlock r span).fn.Clean) :
    (b.endBlock r span).Grounded T base ∧ b.Advances T (b.endBlock r span) := by
  obtain ⟨hall, heq⟩ := endBlock_if_of_clean hb hclean
  have hlines : (if elseSeen then [] else [.label other span]) ++ [Line.label last span] =
      (Block.ifBlock o other last elseSeen ds).pending.map (Line.label · span) := by
    cases elseSeen <;> rfl
  rw [heq, hlines]
  refine h.ended hb rfl hall ?_ ?_ ?_
  · intro a ha
    simp only [List.map_append, List.mem_append, Marking.mem_reached] at ha
    rcases ha with ha | ha
    · exact .inr ha
    · cases elseSeen with
      | true => cases ha
      | false => exact .inl (Marking.mem_reached_opening.mp ha)
  · intro a ha
    simp [List.map_append, Marking.mem_reached.mpr ha]
  · intro Λ hΛ
    refine ⟨?_, fun a ha => hΛ last (by simp [Block.pending]) a (by simp [ha])⟩
    rintro rfl a ha
    exact hΛ other (by simp [Block.pending]) a (by simp [Marking.mem_reached_opening.mpr ha])

theorem endBlock_select {last : String} {next : Option String} {elseSeen armOpen : Bool}
    {ds : List Depth} {vs : List Int64} (h : b.Grounded T base)
    (hb : b.blocks = .selectBlock o last next elseSeen armOpen ds vs :: ks)
    (henter : armOpen = false → ∀ a, T.mark b.fn.tracker = some a → T.entry o = some a)
    (hclean : (b.endBlock r span).fn.Clean) :
    (b.endBlock r span).Grounded T base ∧ b.Advances T (b.endBlock r span) := by
  obtain ⟨hall, heq⟩ := endBlock_select_of_clean hb hclean
  have hlines : next.toList.map (Line.label · span) ++ [Line.label last span] =
      (Block.selectBlock o last next elseSeen armOpen ds vs).pending.map (Line.label · span) := by
    simp [Block.pending]
  obtain ⟨hseen, _⟩ : (Block.selectBlock o last next elseSeen armOpen ds vs).Shaped :=
    h.shaped _ (hb ▸ List.mem_cons_self)
  rw [heq, hlines]
  refine h.ended hb rfl hall ?_ ?_ ?_
  · intro a ha
    simp only [List.map_append, List.mem_append] at ha
    rcases ha with (ha | ha) | ha
    · exact .inr (.inl ha)
    · cases armOpen with
      | true => exact .inr (.inr (Marking.mem_reached.mp ha))
      | false => cases ha
    · cases elseSeen with
      | true => cases ha
      | false => exact .inl (Marking.mem_reached_opening.mp ha)
  · intro a ha
    cases armOpen with
    | true => simp [Marking.mem_reached.mpr ha]
    | false =>
      -- without an arm the select ends as it was opened
      have hopen : elseSeen = false := Bool.eq_false_iff.mpr fun hs => nomatch (hseen hs).1
      simp [hopen, Marking.mem_reached_opening.mpr (henter rfl a ha)]
  · intro Λ hΛ
    refine ⟨?_, fun a ha => hΛ last (by simp [Block.pending]) a (by simp [ha])⟩
    rintro n rfl a ha
    have hopen : elseSeen = false := Bool.eq_false_iff.mpr fun hs => nomatch (hseen hs).2
    exact hΛ n (by simp [Block.pending]) a
      (by simp [hopen, Marking.mem_reached_opening.mpr ha])

/-- The paths that join in a loop come with the mark of its entry. -/
theorem loop_entry (henter : b.fn.tracker.live = true → o.live = true)
    (hall : ∀ d ∈ o.reached ++ b.fn.reached, ∀ d' ∈ o.reached ++ b.fn.reached, d = d') {a : α}
    (ha : a ∈ (o.reached ++ b.fn.reached).map T.ofDepth) : T.entry o = some a := by
  obtain ⟨d, hd, rfl⟩ := List.mem_map.mp ha
  have hopen : o.live = true := by
    rcases List.mem_append.mp hd with hd | hd
    · exact (Marking.entry_eq_some.mp (Marking.mem_reached_opening.mp
        (List.mem_map_of_mem (f := T.ofDepth) hd))).1
    · exact henter (Marking.mark_eq_some.mp (Marking.mem_reached.mp
        (List.mem_map_of_mem (f := T.ofDepth) hd))).1
  rw [hall d hd o.depth (by simp [Opening.reached, hopen])]
  exact Marking.entry_eq_some.mpr ⟨hopen, rfl⟩

theorem endBlock_while {cc : Condition} {top test : String} (h : b.Grounded T base)
    (hb : b.blocks = .whileBlock o cc top test :: ks)
    (henter : b.fn.tracker.live = true → o.live = true)
    (hclean : (b.endBlock r span).fn.Clean) :
    (b.endBlock r span).Grounded T base ∧ b.Advances T (b.endBlock r span) := by
  obtain ⟨hall, heq⟩ := endBlock_while_of_clean hb hclean
  rw [heq]
  generalize hj : joined b.fn.tracker (o.reached ++ b.fn.reached) = t
  have hjoined : ∀ a ∈ (o.reached ++ b.fn.reached).map T.ofDepth, T.mark t = some a := by
    intro a ha
    rw [← hj, Marking.mark_joined hall ha]
  have hentry : ∀ a, T.mark t = some a → T.entry o = some a := by
    intro a ha
    rw [← hj] at ha
    exact loop_entry henter hall (Marking.mem_of_mark_joined ha)
  refine h.closed hb rfl [(test, T.mark t)] (fun a ha => .inl (hentry a ha)) rfl rfl ?_
  intro Λ hΛ hmarks htop
  have htest : Λ test = T.mark t := hmarks _ List.mem_cons_self
  refine ⟨fun a ha => ?_, T.append (T.placed htest (fun a ha => ?_) fun a ha => ?_)
    (T.branch hΛ fun a ha => htop a (hentry a ha))⟩
  · rw [htest]
    exact hjoined a (by simp [Marking.mem_reached_opening.mpr ha])
  · exact hjoined a (by simp [Marking.mem_reached.mpr ha])
  · exact h.within_recorded hb rfl (.inl (hentry a ha))

theorem untilClose {top cond : String} (h : b.Grounded T base)
    (hb : b.blocks = .repeatBlock o top :: ks)
    (henter : b.fn.tracker.live = true → o.live = true)
    (hclean : (b.untilClose r cond span).fn.Clean) :
    (b.untilClose r cond span).Grounded T base ∧ b.Advances T (b.untilClose r cond span) := by
  obtain ⟨hall, cc, _, heq⟩ := untilClose_of_clean hb hclean
  rw [heq]
  have hentry := fun a ha => loop_entry (T := T) (a := a) henter hall ha
  refine h.closed hb rfl [] (fun a ha => .inl (hentry a (Marking.mem_of_mark_joined ha))) rfl rfl ?_
  intro Λ hΛ _ htop
  -- where the body does not end, the tracker goes on as if it did
  have hin : ∀ a, T.mark b.fn.tracker = some a → a ∈ (o.reached ++ b.fn.reached).map T.ofDepth := by
    intro a ha
    simp [Marking.mem_reached.mpr ha]
  refine ⟨trivial, Marking.weaken (T.branch hΛ fun a ha => ?_) fun a ha => ?_⟩
  · exact htop a (hentry a (hin a ha))
  · exact Marking.mark_joined hall (hin a ha)

end Body.Grounded

end Z80Backend
