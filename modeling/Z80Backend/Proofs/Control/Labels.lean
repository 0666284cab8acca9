import Z80Backend.Chunk
import Z80Backend.Label

/-! # Labels in code

    Jumps find their target by name, so a name has to stand in the code once.
    All generated labels share one numbering, and the number can be read off
    the name: two generated labels with different numbers are different.

    * `Label.make_inj`: a generated label determines its number.
    * `Line.seek`: the code after a label.
    * `Line.Fresh`: the labels of some code were generated, each with a number
      of its own. -/

namespace Z80Backend

/-! ## Numbers of generated labels -/

namespace Label

/-- The kinds of labels that lowering makes, those in op bodies apart. -/
def kinds : List String :=
  ["if_else", "if_end", "while_top", "while_cond", "repeat_top", "select_end", "select_next",
   "select_arm", "epilogue"]

/-- A negative number is written with a minus sign. -/
theorem negRepr_toList (m : Nat) : (Int.negSucc m).repr.toList = '-' :: m.succ.repr.toList := by
  show ("-" ++ m.succ.repr).toList = _
  rw [String.toList_append]
  rfl

/-- A number is written without underscores. -/
theorem underscore_not_mem_repr (n : Int) : '_' ∉ n.repr.toList := by
  cases n with
  | ofNat m =>
    show '_' ∉ m.repr.toList
    rw [Nat.toList_repr]
    exact Nat.underscore_not_in_toDigits
  | negSucc m =>
    rw [negRepr_toList, Nat.toList_repr, List.mem_cons]
    rintro (h | h)
    · exact absurd h (by decide)
    · exact Nat.underscore_not_in_toDigits h

/-- A natural number can be read back from its digits. -/
theorem natRepr_inj {m n : Nat} (h : m.repr.toList = n.repr.toList) : m = n := by
  rw [Nat.toList_repr, Nat.toList_repr] at h
  rw [← Nat.ofDigitChars_ten_toDigits (n := m), h, Nat.ofDigitChars_ten_toDigits]

/-- The digits of a natural number do not start with a minus sign. -/
theorem natRepr_ne_minus (m : Nat) (cs : List Char) : m.repr.toList ≠ '-' :: cs := by
  intro h
  have hmem : '-' ∈ Nat.toDigits 10 m := by
    rw [← Nat.toList_repr, h]
    exact List.mem_cons_self
  have hdigit := Nat.isDigit_of_mem_toDigits (by decide) (by decide) hmem
  revert hdigit
  decide

/-- An integer can be read back from its text. -/
theorem intRepr_inj {m n : Int} (h : m.repr.toList = n.repr.toList) : m = n := by
  cases m with
  | ofNat a =>
    cases n with
    | ofNat b => exact congrArg Int.ofNat (natRepr_inj h)
    | negSucc b => exact absurd (h.trans (negRepr_toList b)) (natRepr_ne_minus a _)
  | negSucc a =>
    cases n with
    | ofNat b => exact absurd (h.symm.trans (negRepr_toList a)) (natRepr_ne_minus b _)
    | negSucc b =>
      rw [negRepr_toList, negRepr_toList] at h
      exact congrArg Int.negSucc (Nat.succ.inj (natRepr_inj (List.cons.inj h).2))

/-- What follows the last underscore of two equal texts is equal. -/
theorem append_underscore_inj {a b cs ds : List Char} (hc : '_' ∉ cs) (hd : '_' ∉ ds)
    (h : a ++ '_' :: cs = b ++ '_' :: ds) : cs = ds := by
  rcases List.append_eq_append_iff.mp h with ⟨x, rfl, hx⟩ | ⟨x, rfl, hx⟩
  · cases x with
    | nil => exact (List.cons.inj hx).2
    | cons y ys =>
      have hcs : cs = ys ++ '_' :: ds := (List.cons.inj hx).2
      exact absurd (hcs ▸ List.mem_append_right ys List.mem_cons_self) hc
  · cases x with
    | nil => exact (List.cons.inj hx).2.symm
    | cons y ys =>
      have hds : ds = ys ++ '_' :: cs := (List.cons.inj hx).2
      exact absurd (hds ▸ List.mem_append_right ys List.mem_cons_self) hd

theorem make_ne_empty (kind : String) (n : Int) : make kind n ≠ "" := by
  simp [make, reserved]

/-- A generated label determines its number. -/
theorem make_inj {k k' : String} {m n : Int} (h : make k m = make k' n) : m = n := by
  have h' : (reserved ++ k).toList ++ '_' :: m.repr.toList =
      (reserved ++ k').toList ++ '_' :: n.repr.toList := by
    have hl := congrArg String.toList h
    simpa [make, String.toList_append] using hl
  exact intRepr_inj
    (append_underscore_inj (underscore_not_mem_repr m) (underscore_not_mem_repr n) h')

end Label

/-! ## Labels of code -/

namespace Line

/-- The name that a line defines. -/
def labelName? : Line → Option String
  | label name _ => some name
  | _ => none

/-- The names that code defines, in order. -/
def labelNames (ls : List Line) : List String := ls.filterMap labelName?

@[simp] theorem labelNames_nil : labelNames [] = [] := rfl

@[simp] theorem labelNames_append (ls ms : List Line) :
    labelNames (ls ++ ms) = labelNames ls ++ labelNames ms := by
  simp [labelNames]

@[simp] theorem labelNames_label (name : String) (span : Span) (ls : List Line) :
    labelNames (.label name span :: ls) = name :: labelNames ls := rfl

@[simp] theorem labelNames_instr (i : Instruction) (code : MachineInstr) (ls : List Line) :
    labelNames (.instr i code :: ls) = labelNames ls := rfl

/-- The code after a label. -/
def seek (name : String) : List Line → Option (List Line)
  | [] => none
  | l :: ls => if l.labelName? = some name then some ls else seek name ls

/-- A label is found where it stands, unless it stands earlier, too. -/
theorem seek_of_not_mem {name : String} {before : List Line} (span : Span) (after : List Line)
    (h : name ∉ labelNames before) :
    seek name (before ++ .label name span :: after) = some after := by
  induction before with
  | nil => simp [seek, labelName?]
  | cons l ls ih =>
    have hl : l.labelName? ≠ some name := by
      intro he
      exact h (List.mem_filterMap.mpr ⟨l, List.mem_cons_self, he⟩)
    have hls : name ∉ labelNames ls := by
      intro hmem
      obtain ⟨k, hk, hname⟩ := List.mem_filterMap.mp hmem
      exact h (List.mem_filterMap.mpr ⟨k, List.mem_cons_of_mem l hk, hname⟩)
    rw [List.cons_append, seek, if_neg hl]
    exact ih hls

/-- Where names are defined once, every label is found where it stands. -/
theorem seek_of_nodup {name : String} {before after : List Line} {span : Span}
    (h : (labelNames (before ++ .label name span :: after)).Nodup) :
    seek name (before ++ .label name span :: after) = some after := by
  apply seek_of_not_mem
  intro hmem
  rw [labelNames_append, labelNames_label, List.nodup_append] at h
  exact h.2.2 name hmem name List.mem_cons_self rfl

/-! ## Freshness -/

/-- The labels of the code were generated, each once, with numbers that have
    the property `P`. -/
structure Fresh (P : Int → Prop) (ls : List Line) : Prop where
  named : ∀ name ∈ labelNames ls, ∃ kind n, name = Label.make kind n ∧ P n
  nodup : (labelNames ls).Nodup

namespace Fresh

variable {P Q : Int → Prop} {ls ms : List Line}

/-- Code without labels is fresh. -/
theorem of_labelNames_eq_nil (h : labelNames ls = []) : Fresh P ls where
  named := by simp [h]
  nodup := by simp [h]

theorem label {kind : String} {n : Int} {span : Span} :
    Fresh (· = n) [.label (Label.make kind n) span] where
  named name hname := by
    rw [labelNames_label, labelNames_nil, List.mem_singleton] at hname
    exact ⟨kind, n, hname, rfl⟩
  nodup := by simp

/-- Code without labels may stand before. -/
theorem append_left (hls : labelNames ls = []) (h : Fresh P ms) : Fresh P (ls ++ ms) := by
  have hnames : labelNames (ls ++ ms) = labelNames ms := by simp [hls]
  exact ⟨by rw [hnames]; exact h.named, by rw [hnames]; exact h.nodup⟩

/-- Code without labels may stand behind. -/
theorem append_right (h : Fresh P ls) (hms : labelNames ms = []) : Fresh P (ls ++ ms) := by
  have hnames : labelNames (ls ++ ms) = labelNames ls := by simp [hms]
  exact ⟨by rw [hnames]; exact h.named, by rw [hnames]; exact h.nodup⟩

/-- A line without a label may stand before. -/
theorem cons {l : Line} (hl : l.labelName? = none) (h : Fresh P ls) : Fresh P (l :: ls) :=
  append_left (show labelNames [l] = [] by simp [labelNames, hl]) h

theorem mono (h : Fresh P ls) (hPQ : ∀ n, P n → Q n) : Fresh Q ls where
  named name hname := by
    obtain ⟨kind, n, rfl, hn⟩ := h.named name hname
    exact ⟨kind, n, rfl, hPQ n hn⟩
  nodup := h.nodup

/-- Labels with different numbers are different. -/
theorem append (h : Fresh P ls) (h' : Fresh Q ms) (hsep : ∀ n, P n → ¬ Q n) :
    Fresh (fun n => P n ∨ Q n) (ls ++ ms) where
  named name hname := by
    rw [labelNames_append, List.mem_append] at hname
    rcases hname with hname | hname
    · exact (h.mono fun _ => .inl).named name hname
    · exact (h'.mono fun _ => .inr).named name hname
  nodup := by
    rw [labelNames_append, List.nodup_append]
    refine ⟨h.nodup, h'.nodup, ?_⟩
    intro a ha b hb hab
    obtain ⟨k, m, rfl, hm⟩ := h.named a ha
    obtain ⟨k', n, rfl, hn⟩ := h'.named b hb
    obtain rfl := Label.make_inj hab
    exact hsep m hm hn

/-- A label with a new number may stand before. -/
theorem cons_label {kind : String} {n : Int} {span : Span} (h : Fresh P ls) (hn : ¬ P n) :
    Fresh (fun k => k = n ∨ P k) (.label (Label.make kind n) span :: ls) :=
  label.append h fun _ hk => hk ▸ hn

end Fresh

end Line

end Z80Backend
