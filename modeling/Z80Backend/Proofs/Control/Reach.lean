import Z80Backend.Proofs.Assembly.Names
import Z80Backend.Proofs.Function.Labelled
import Z80Backend.Proofs.Stack.Opcodes

/-! # Lines that control comes to

    Control starts at the first line of emitted code and goes on as `Line.flow`
    says; a call may go to a label of the code as well.  Where the lines do not
    tell the target of a jump, it may be any label that the user placed.

    A tracker that goes through the code once, from the first line to the last,
    cannot follow jumps backwards.  It has to guess at each label whether
    control comes there.  `Line.LiveFlow` says that guesses fit the code, and
    `Line.LiveFlow.live_of_fallsInto` that guesses that fit are safe: control
    falls only into points that count as live.

    * `Line.Visits` and `Line.FallsInto` are what control comes to.
    * `Line.LiveFlow` is what guesses have to satisfy. -/

namespace Z80Backend

/-! ## Flow of control -/

namespace MachineInstr

/-- The labels that control can go to from the instruction. -/
def targets : MachineInstr → List String
  | .call t | .callIf _ t => t.label?.toList
  | m => m.flow.to?.join.toList

theorem mem_symbols_of_targets {m : MachineInstr} {x : String} (h : x ∈ m.targets) :
    x ∈ m.symbols ∧ x ≠ "" := by
  cases m with
  | jp t | jpIf cc t | call t | callIf cc t =>
    obtain ⟨rfl, hne⟩ := Word.eq_of_label? (Option.mem_toList.mp h)
    exact ⟨List.mem_singleton_self x, hne⟩
  | jr t | jrIf cc t | djnz t =>
    obtain ⟨rfl, hne⟩ := Value.eq_of_label? (Option.mem_toList.mp h)
    exact ⟨List.mem_singleton_self x, hne⟩
  | plain p => cases p <;> cases h
  | _ => cases h

end MachineInstr

namespace Line

/-- Control comes to the line with the given number. -/
inductive Visits (ls : List Line) : Nat → Prop where
  | entry : Visits ls 0
  | next {p l} (h : Visits ls p) (hl : ls[p]? = some l) (hpass : l.flow.goesOn = true) :
      Visits ls (p + 1)
  | jump {p q i code x span} (h : Visits ls p) (hl : ls[p]? = some (.instr i code))
      (hx : x ∈ code.targets) (hq : ls[q]? = some (.label x span)) : Visits ls q
  | elsewhere {p q l x span} (h : Visits ls p) (hl : ls[p]? = some l)
      (hto : l.flow.to? = some none) (hq : ls[q]? = some (.label x span))
      (hx : Label.IsForeign x) : Visits ls q

/-- Control comes to the point before the line with the given number, from the
    line above it or, at the beginning, from outside. -/
inductive FallsInto (ls : List Line) : Nat → Prop where
  | entry : FallsInto ls 0
  | next {p l} (h : Visits ls p) (hl : ls[p]? = some l) (hpass : l.flow.goesOn = true) :
      FallsInto ls (p + 1)

/-! ## Guesses -/

/-- Is the point behind a line live?  `Λ` are the labels that count as live,
    and `m` tells whether the point before the line is live. -/
def behind (Λ : String → Bool) (m : Bool) : Line → Bool
  | .label x _ => Λ x
  | l => m && l.flow.goesOn

/-- Where control comes to a line that counts as live, the labels that it goes
    to count as live. -/
def Guards (Λ : String → Bool) (m : Bool) : Line → Prop
  | .label x _ => m = true → Λ x = true
  | .instr i code => m = true → ∀ x ∈ code.symbols, x ∈ i.names → Λ x = true
  | _ => True

/-- Guesses fit the lines from a point to a later one; `m` and `m'` tell
    whether these are live. -/
def LiveFlow (Λ : String → Bool) : Bool → List Line → Bool → Prop
  | m, [], m' => m = true → m' = true
  | m, l :: ls, m' => l.Guards Λ m ∧ LiveFlow Λ (l.behind Λ m) ls m'

variable {Λ : String → Bool} {m m' k k' : Bool} {l : Line} {ls ms : List Line} {p : Nat}

theorem Guards.mono (h : l.Guards Λ m) (hk : k = true → m = true) : l.Guards Λ k := by
  cases l with
  | label x span => exact fun hlive => h (hk hlive)
  | instr i code => exact fun hlive => h (hk hlive)
  | data bs text => trivial
  | fixup f => trivial
  | reserve n text => trivial

theorem behind_mono (hk : k = true → m = true) (h : l.behind Λ k = true) :
    l.behind Λ m = true := by
  cases l with
  | label x span => exact h
  | instr i code | data bs text | fixup f | reserve n text =>
    obtain ⟨hlive, hpass⟩ := Bool.and_eq_true_iff.mp h
    exact Bool.and_eq_true_iff.mpr ⟨hk hlive, hpass⟩

namespace LiveFlow

/-- A point may count as live although it is not. -/
theorem mono (h : LiveFlow Λ m ls m') (hk : k = true → m = true) (hk' : m' = true → k' = true) :
    LiveFlow Λ k ls k' := by
  induction ls generalizing m k with
  | nil => exact fun hlive => hk' (h (hk hlive))
  | cons l ls ih => exact ⟨h.1.mono hk, ih h.2 (behind_mono hk)⟩

theorem append (h : LiveFlow Λ m ls m') (h' : LiveFlow Λ m' ms k) : LiveFlow Λ m (ls ++ ms) k := by
  induction ls generalizing m with
  | nil => exact h'.mono h id
  | cons l ls ih => exact ⟨h.1, ih h.2⟩

/-- The point behind the lines is live if passing them says so. -/
theorem live (h : LiveFlow Λ m ls m') (hlive : ls.foldl (behind Λ) m = true) : m' = true := by
  induction ls generalizing m with
  | nil => exact h hlive
  | cons l ls ih => exact ih h.2 hlive

theorem guards (h : LiveFlow Λ m ls m') (hl : ls[p]? = some l) :
    l.Guards Λ ((ls.take p).foldl (behind Λ) m) := by
  induction ls generalizing m p with
  | nil => cases hl
  | cons l' ls ih =>
    cases p with
    | zero =>
      cases hl
      exact h.1
    | succ p => exact ih h.2 hl

end LiveFlow

/-- Is the point before a line live, when the lines above it are passed? -/
def liveAt (Λ : String → Bool) (ls : List Line) (p : Nat) : Bool :=
  (ls.take p).foldl (behind Λ) true

theorem liveAt_succ (hl : ls[p]? = some l) : liveAt Λ ls (p + 1) = l.behind Λ (liveAt Λ ls p) := by
  unfold liveAt
  rw [List.take_add_one, hl, List.foldl_append]
  rfl

/-- What holds of every line that control comes to: it is a label that counts as
    live, or the point before it is live. -/
def Expected (Λ : String → Bool) (ls : List Line) (p : Nat) : Prop :=
  ∀ l, ls[p]? = some l → match l with
    | .label x _ => Λ x = true
    | _ => liveAt Λ ls p = true

/-- A line that control falls into from a live point. -/
theorem expected_of_liveAt (h : LiveFlow Λ true ls m') (hlive : liveAt Λ ls p = true) :
    Expected Λ ls p := by
  intro l hl
  cases l with
  | label x span => exact h.guards hl hlive
  | instr i code => exact hlive
  | data bs text => exact hlive
  | fixup f => exact hlive
  | reserve n text => exact hlive

/-- Control passes from a line only to a live point. -/
theorem Expected.liveAt_succ (h : Expected Λ ls p) (hl : ls[p]? = some l)
    (hpass : l.flow.goesOn = true) : liveAt Λ ls (p + 1) = true := by
  have hline := h l hl
  rw [Line.liveAt_succ hl]
  cases l with
  | label x span => exact hline
  | instr i code => exact Bool.and_eq_true_iff.mpr ⟨hline, hpass⟩
  | data bs text => exact Bool.and_eq_true_iff.mpr ⟨hline, hpass⟩
  | fixup f => exact Bool.and_eq_true_iff.mpr ⟨hline, hpass⟩
  | reserve n text => exact Bool.and_eq_true_iff.mpr ⟨hline, hpass⟩

section

variable (hflow : LiveFlow Λ true ls m') (hforeign : ∀ x, Label.IsForeign x → Λ x = true)
  (hcode : ∀ i code, Line.instr i code ∈ ls → ∃ r, assemble r i = .ok code)

include hflow hforeign hcode

/-- Guesses that fit are safe.  The induction is on the way that control takes;
    jumps lead to labels that count as live because their own line does. -/
theorem Visits.expected (h : Visits ls p) : Expected Λ ls p := by
  induction h with
  | entry => exact expected_of_liveAt hflow rfl
  | next _ hl hpass ih => exact expected_of_liveAt hflow (ih.liveAt_succ hl hpass)
  | @jump p q i code x span _ hl hx hq ih =>
    obtain ⟨r, hasm⟩ := hcode i code (List.mem_of_getElem? hl)
    obtain ⟨hsymbol, hne⟩ := MachineInstr.mem_symbols_of_targets hx
    have hlabel : Λ x = true :=
      hflow.guards hl (ih _ hl) x hsymbol (mem_names_of_assemble hasm hsymbol hne)
    intro l hl'
    rw [hq] at hl'
    cases hl'
    exact hlabel
  | @elsewhere p q l x span _ _ _ hq hx _ =>
    intro l hl'
    rw [hq] at hl'
    cases hl'
    exact hforeign x hx

/-- Control falls only into points that count as live. -/
theorem LiveFlow.live_of_fallsInto (h : FallsInto ls p) : liveAt Λ ls p = true := by
  cases h with
  | entry => rfl
  | next hvisits hl hpass =>
    exact (hvisits.expected hflow hforeign hcode).liveAt_succ hl hpass

end

end Line

end Z80Backend
