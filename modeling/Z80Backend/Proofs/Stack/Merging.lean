import Mathlib.Order.Bounds.Basic
import Z80Backend.Stack.Depth

/-! # Depths where paths meet

    Depths are ordered by how much is known of them: a known depth is below
    `unknown`, which is below `untracked`, and different known depths are not
    compared.  Where paths meet, `Depth.join` singles out the first depth and the
    first one that differs from it, but what comes out is the least upper bound
    of all of them (`Depth.isLUB_join`).  So neither their order nor repetitions
    matter, and they may as well be merged two by two, in any nesting.

    * `Depth.join_merges`: merging depths is a join-semilattice. -/

namespace Z80Backend

namespace Depth

/-! ## The order -/

/-- How little is known. -/
def rank : Depth → Nat
  | known _ => 0
  | unknown => 1
  | untracked => 2

/-- A depth is below all those of which less is known. -/
instance : PartialOrder Depth where
  le d e := d = e ∨ d.rank < e.rank
  le_refl d := .inl rfl
  le_trans d e f hde hef := by
    rcases hde with rfl | hde
    · exact hef
    · rcases hef with rfl | hef
      · exact .inr hde
      · exact .inr (Nat.lt_trans hde hef)
  le_antisymm d e hde hed := by
    rcases hde with rfl | hde
    · rfl
    · rcases hed with rfl | hed
      · rfl
      · exact absurd hde (Nat.lt_asymm hed)

theorem le_untracked (d : Depth) : d ≤ untracked := by
  cases d with
  | known n => exact .inr Nat.two_pos
  | unknown => exact .inr Nat.one_lt_two
  | untracked => exact le_refl _

theorem le_unknown {d : Depth} (h : d ≠ untracked) : d ≤ unknown := by
  cases d with
  | known n => exact .inr Nat.one_pos
  | unknown => exact le_refl _
  | untracked => exact absurd rfl h

/-- Nothing but itself is below a known depth. -/
theorem eq_of_le_known {d : Depth} {n : Int64} (h : d ≤ known n) : d = known n :=
  h.resolve_right (Nat.not_lt_zero _)

theorem eq_untracked_of_le {d : Depth} (h : untracked ≤ d) : d = untracked :=
  le_antisymm (le_untracked d) h

/-- Above two depths that differ there is no known one. -/
theorem unknown_le_of_ne {d e u : Depth} (hne : d ≠ e) (hd : d ≤ u) (he : e ≤ u) :
    unknown ≤ u := by
  cases u with
  | known n => exact absurd ((eq_of_le_known hd).trans (eq_of_le_known he).symm) hne
  | unknown => exact le_refl _
  | untracked => exact le_untracked _

/-! ## Merging all at once -/

variable {site : JoinSite} {ds : List Depth}

/-- How depths are merged.  Either they are all the same, or two of them differ
    and the result is the top of the order if one of them is. -/
theorem join_cases (site : JoinSite) {ds : List Depth} (hne : ds ≠ []) :
    (∃ d ∈ ds, (∀ e ∈ ds, e = d) ∧ join site ds = (d, none)) ∨
      ∃ d ∈ ds, ∃ e ∈ ds, d ≠ e ∧ (join site ds).2.isSome = true ∧
        (join site ds).1 = if untracked ∈ ds then untracked else unknown := by
  cases ds with
  | nil => exact absurd rfl hne
  | cons first rest =>
    cases hfind : rest.find? (· != first) with
    | none =>
      refine .inl ⟨first, List.mem_cons_self, fun e he => ?_, by simp only [join, hfind]⟩
      rcases List.mem_cons.mp he with rfl | he
      · rfl
      · simpa using List.find?_eq_none.mp hfind e he
    | some other =>
      have hother : other ≠ first := by simpa using List.find?_some hfind
      refine .inr ⟨other, List.mem_cons_of_mem _ (List.mem_of_find?_eq_some hfind), first,
        List.mem_cons_self, hother, ?_⟩
      simp only [join, hfind, List.contains_iff_mem]
      split
      · exact ⟨rfl, rfl⟩
      · split <;> exact ⟨rfl, rfl⟩

/-- Merged depths are the least upper bound of what they are merged from. -/
theorem isLUB_join (site : JoinSite) (hne : ds ≠ []) : IsLUB {d | d ∈ ds} (join site ds).1 := by
  rcases join_cases site hne with ⟨d, hd, hall, heq⟩ | ⟨d, hd, e, he, hdiffer, _, heq⟩
  · rw [heq]
    refine ⟨fun e he => ?_, fun u hu => hu hd⟩
    rw [hall e he]
  · rw [heq]
    by_cases huntracked : untracked ∈ ds
    · rw [if_pos huntracked]
      exact ⟨fun x _ => le_untracked x, fun u hu => hu huntracked⟩
    · rw [if_neg huntracked]
      refine ⟨fun x hx => le_unknown fun heq => huntracked (heq ▸ hx), fun u hu => ?_⟩
      exact unknown_le_of_ne hdiffer (hu hd) (hu he)

/-- There is a report exactly if two depths differ. -/
theorem isSome_join_iff (site : JoinSite) (hne : ds ≠ []) :
    (join site ds).2.isSome = true ↔ ∃ d ∈ ds, ∃ e ∈ ds, d ≠ e := by
  rcases join_cases site hne with ⟨d, _, hall, heq⟩ | ⟨d, hd, e, he, hdiffer, hsome, _⟩
  · rw [heq]
    constructor
    · exact nofun
    · rintro ⟨x, hx, y, hy, hxy⟩
      exact absurd ((hall x hx).trans (hall y hy).symm) hxy
  · exact ⟨fun _ => ⟨d, hd, e, he, hdiffer⟩, fun _ => hsome⟩

end Depth

/-! ## Merging two by two -/

/-- Depths that are merged two by two, each time where paths meet. -/
inductive Merger where
  | state (d : Depth)
  | pair (site : JoinSite) (left right : Merger)

namespace Merger

/-- The depths from left to right. -/
def states : Merger → List Depth
  | state d => [d]
  | pair _ left right => left.states ++ right.states

/-- What the depths merge to. -/
def depth : Merger → Depth
  | state d => d
  | pair site left right => (Depth.join site [left.depth, right.depth]).1

/-- Is there a report at one of the points where two depths are merged? -/
def reports : Merger → Bool
  | state _ => false
  | pair site left right =>
    left.reports || right.reports || (Depth.join site [left.depth, right.depth]).2.isSome

theorem states_ne_nil (m : Merger) : m.states ≠ [] := by
  induction m with
  | state d => exact List.cons_ne_nil _ _
  | pair site left right hleft _ => simp [states, hleft]

/-- However they are nested, depths merge to their least upper bound. -/
theorem isLUB_depth (m : Merger) : IsLUB {d | d ∈ m.states} m.depth := by
  induction m with
  | state d =>
    simp only [states, depth, List.mem_singleton, Set.ofPred_eq_eq_singleton]
    exact isLUB_singleton
  | pair site left right hleft hright =>
    have htop := Depth.isLUB_join site (List.cons_ne_nil left.depth [right.depth])
    have hl : left.depth ≤ (pair site left right).depth := htop.1 List.mem_cons_self
    have hr : right.depth ≤ (pair site left right).depth :=
      htop.1 (List.mem_cons_of_mem _ List.mem_cons_self)
    constructor
    · intro d hd
      rcases List.mem_append.mp hd with hd | hd
      · exact le_trans (hleft.1 hd) hl
      · exact le_trans (hright.1 hd) hr
    · intro u hu
      refine htop.2 fun d hd => ?_
      rcases List.mem_cons.mp hd with rfl | hd
      · exact hleft.2 fun x hx => hu (List.mem_append_left _ hx)
      · rw [List.mem_singleton.mp hd]
        exact hright.2 fun x hx => hu (List.mem_append_right _ hx)

/-- Depths that are all the same merge to it. -/
theorem depth_eq {m : Merger} {d : Depth} (h : ∀ e ∈ m.states, e = d) : m.depth = d := by
  obtain ⟨e, he⟩ := List.exists_mem_of_ne_nil _ m.states_ne_nil
  refine le_antisymm (m.isLUB_depth.2 fun x hx => (h x hx).le) ?_
  rw [← h e he]
  exact m.isLUB_depth.1 he

/-- There is no report exactly if all depths are the one that they merge to. -/
theorem reports_eq_false_iff (m : Merger) :
    m.reports = false ↔ ∀ d ∈ m.states, d = m.depth := by
  induction m with
  | state d => simp [reports, states, depth]
  | pair site left right hleft hright =>
    have hsome : (Depth.join site [left.depth, right.depth]).2.isSome = false ↔
        left.depth = right.depth := by
      rw [← Bool.not_eq_true, Depth.isSome_join_iff site (List.cons_ne_nil _ _)]
      simp [eq_comm]
    rw [reports, Bool.or_eq_false_iff, Bool.or_eq_false_iff, hleft, hright, hsome]
    constructor
    · rintro ⟨⟨hl, hr⟩, heq⟩
      have hall : ∀ d ∈ (pair site left right).states, d = left.depth :=
        List.forall_mem_append.mpr ⟨hl, heq ▸ hr⟩
      rw [depth_eq hall]
      exact hall
    · intro hall
      obtain ⟨hl, hr⟩ := List.forall_mem_append.mp hall
      rw [depth_eq hl, depth_eq hr]
      exact ⟨⟨hl, hr⟩, rfl⟩

/-- There is a report exactly if two depths differ. -/
theorem reports_iff (m : Merger) :
    m.reports = true ↔ ∃ d ∈ m.states, ∃ e ∈ m.states, d ≠ e := by
  rw [← Bool.not_eq_false, reports_eq_false_iff]
  constructor
  · intro h
    by_contra hsame
    push Not at hsame
    obtain ⟨e, he⟩ := List.exists_mem_of_ne_nil _ m.states_ne_nil
    refine h fun d hd => (hsame d hd e he).trans (depth_eq fun x hx => hsame x hx e he).symm
  · rintro ⟨d, hd, e, he, hne⟩ hall
    exact hne ((hall d hd).trans (hall e he).symm)

end Merger

/-! ## The semilattice -/

/-- Merging depths is a join-semilattice.  Depths merge to their least upper bound,
    which depends neither on the place where they meet nor on their order and
    repetitions, and merging them two by two in any nesting gives the same depth
    and a report in the same cases.  There is a report exactly if two of them
    differ.  If they merge to a known depth, then all of them are that depth, and
    an untracked one prevails over all others. -/
theorem Depth.join_merges (site : JoinSite) (ds : List Depth) (hne : ds ≠ []) :
    IsLUB {d | d ∈ ds} (join site ds).1 ∧
    (∀ site' es, (∀ d, d ∈ es ↔ d ∈ ds) → (join site' es).1 = (join site ds).1) ∧
    (∀ m : Merger, m.states = ds →
      m.depth = (join site ds).1 ∧ m.reports = (join site ds).2.isSome) ∧
    ((join site ds).2.isSome = true ↔ ∃ d ∈ ds, ∃ e ∈ ds, d ≠ e) ∧
    (∀ n, (join site ds).1 = known n → ∀ d ∈ ds, d = known n) ∧
    (untracked ∈ ds → (join site ds).1 = untracked) := by
  have hlub := isLUB_join site hne
  refine ⟨hlub, fun site' es hsame => ?_, fun m hm => ?_, isSome_join_iff site hne, ?_, ?_⟩
  · obtain ⟨d, hd⟩ := List.exists_mem_of_ne_nil ds hne
    have hes : es ≠ [] := List.ne_nil_of_mem ((hsame d).mpr hd)
    have hset : {d | d ∈ es} = {d | d ∈ ds} := Set.ext hsame
    exact (hset ▸ isLUB_join site' hes).unique hlub
  · subst hm
    exact ⟨m.isLUB_depth.unique hlub,
      Bool.eq_iff_iff.mpr (m.reports_iff.trans (isSome_join_iff site hne).symm)⟩
  · intro n hknown d hd
    exact eq_of_le_known (hknown ▸ hlub.1 hd)
  · intro huntracked
    exact eq_untracked_of_le (hlub.1 huntracked)

/-- Two arms that agree, one that does not and one that is not tracked, merged from
    the right. -/
theorem Depth.join_merges_four :
    (Merger.pair .ifJoin (.state (.known 2)) (.pair .selectJoin (.state (.known 2))
      (.pair .ifJoin (.state (.known 4)) (.state .untracked)))).depth = .untracked ∧
    (Depth.join .selectJoin [.known 2, .known 2, .known 4, .untracked]).1 = .untracked := by
  have h := Depth.join_merges .selectJoin [.known 2, .known 2, .known 4, .untracked]
    (List.cons_ne_nil _ _)
  have htop := h.2.2.2.2.2 (by decide)
  exact ⟨(h.2.2.1 _ rfl).1.trans htop, htop⟩

end Z80Backend
