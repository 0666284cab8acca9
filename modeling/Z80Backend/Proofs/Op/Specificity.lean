import Mathlib.Algebra.GroupWithZero.Nat
import Mathlib.Data.List.Forall2
import Mathlib.Data.List.Perm.Basic
import Mathlib.Order.Defs.Unbundled
import Z80Backend.Op.Overload

/-! # The most specific overload

    A call goes to the one matching overload that is more specific than all the
    others, and where there is none the error lists the overloads that nothing
    beats.  The first is a search for an element below all others, the second a
    list of minimal elements.

    That the two agree rests on one measure.  Each matcher has a breadth, and an
    overload that dominates another of its arity has a smaller sum of breadths.
    So dominance is irreflexive, and below every overload of a finite list there
    is one that nothing dominates.

    * `OpDecl.breadth_lt_of_dominates`, `OpDecl.dominates_trans`: dominance.
    * `OpDecl.mostSpecific?_eq_some_iff`: the search.
    * `OpDecl.two_le_length_undominated`: the list.
    * `Ops.resolve_mostSpecific`: what a call is resolved to, in whatever order
      the overloads are declared. -/

namespace Z80Backend

/-! ## Breadth -/

/-- How much a matcher accepts, on a scale that `narrower` goes down on. -/
def Matcher.breadth : Matcher → Nat
  | .token _ => 0
  | .reg8 | .reg16 | .idx16 | .cc | .imm8 | .mem8 | .mem16 => 1
  | .imm16 | .ea | .unknown => 2

/-- Is the first matcher of the same kind or narrower? -/
def Matcher.atMost (a b : Matcher) : Bool := a.sameKind b || a.narrower b

namespace Matcher

variable {a b c : Matcher}

theorem breadth_lt_of_narrower (h : a.narrower b = true) : a.breadth < b.breadth := by
  cases a <;> cases b <;> cases h <;> simp [breadth]

theorem breadth_le_of_atMost (h : a.atMost b = true) : a.breadth ≤ b.breadth := by
  cases a <;> cases b <;> cases h <;> simp [breadth]

theorem atMost_trans (hab : a.atMost b = true) (hbc : b.atMost c = true) : a.atMost c = true := by
  cases a <;> cases b <;> cases hab <;> cases c <;> cases hbc <;> rfl

theorem narrower_of_atMost (hab : a.narrower b = true) (hbc : b.atMost c = true) :
    a.narrower c = true := by
  cases a <;> cases b <;> cases hab <;> cases c <;> cases hbc <;> rfl

end Matcher

/-! ## Dominance -/

namespace OpParam

/-- How much a list of parameters accepts. -/
def listBreadth (ps : List OpParam) : Nat := (ps.map (·.matcher.breadth)).sum

theorem listLE_cons {p q : OpParam} {ps qs : List OpParam} :
    listLE (p :: ps) (q :: qs) = true ↔
      p.matcher.atMost q.matcher = true ∧ listLE ps qs = true := by
  rw [listLE, Bool.and_eq_true]
  rfl

theorem listLT_cons {p q : OpParam} {ps qs : List OpParam} :
    listLT (p :: ps) (q :: qs) = true ↔
      p.matcher.narrower q.matcher = true ∨ listLT ps qs = true := by
  rw [listLT, Bool.or_eq_true]

theorem listBreadth_le {ps qs : List OpParam} (hlen : ps.length = qs.length)
    (h : listLE ps qs = true) : listBreadth ps ≤ listBreadth qs := by
  induction ps generalizing qs with
  | nil => exact Nat.zero_le _
  | cons p ps ih =>
    cases qs with
    | nil => cases hlen
    | cons q qs =>
      obtain ⟨hhead, htail⟩ := listLE_cons.mp h
      have hp := Matcher.breadth_le_of_atMost hhead
      have hps := ih (Nat.succ.inj hlen) htail
      show p.matcher.breadth + listBreadth ps ≤ q.matcher.breadth + listBreadth qs
      omega

theorem listBreadth_lt {ps qs : List OpParam} (hlen : ps.length = qs.length)
    (hle : listLE ps qs = true) (hlt : listLT ps qs = true) :
    listBreadth ps < listBreadth qs := by
  induction ps generalizing qs with
  | nil => cases hlt
  | cons p ps ih =>
    cases qs with
    | nil => cases hlen
    | cons q qs =>
      obtain ⟨hhead, htail⟩ := listLE_cons.mp hle
      show p.matcher.breadth + listBreadth ps < q.matcher.breadth + listBreadth qs
      rcases listLT_cons.mp hlt with hstrict | hstrict
      · have hp := Matcher.breadth_lt_of_narrower hstrict
        have hps := listBreadth_le (Nat.succ.inj hlen) htail
        omega
      · have hp := Matcher.breadth_le_of_atMost hhead
        have hps := ih (Nat.succ.inj hlen) htail hstrict
        omega

theorem listLE_trans {ps qs rs : List OpParam} (hpq : ps.length = qs.length)
    (hle : listLE ps qs = true) (hle' : listLE qs rs = true) : listLE ps rs = true := by
  induction ps generalizing qs rs with
  | nil => rfl
  | cons p ps ih =>
    cases qs with
    | nil => cases hpq
    | cons q qs =>
      cases rs with
      | nil => rfl
      | cons r rs =>
        obtain ⟨hhead, htail⟩ := listLE_cons.mp hle
        obtain ⟨hhead', htail'⟩ := listLE_cons.mp hle'
        exact listLE_cons.mpr
          ⟨Matcher.atMost_trans hhead hhead', ih (Nat.succ.inj hpq) htail htail'⟩

/-- One parameter that is narrower stays so further up. -/
theorem listLT_of_listLE {ps qs rs : List OpParam} (hqr : qs.length = rs.length)
    (hlt : listLT ps qs = true) (hle : listLE qs rs = true) : listLT ps rs = true := by
  induction ps generalizing qs rs with
  | nil => cases hlt
  | cons p ps ih =>
    cases qs with
    | nil => cases hlt
    | cons q qs =>
      cases rs with
      | nil => cases hqr
      | cons r rs =>
        obtain ⟨hhead, htail⟩ := listLE_cons.mp hle
        rcases listLT_cons.mp hlt with hstrict | hstrict
        · exact listLT_cons.mpr (.inl (Matcher.narrower_of_atMost hstrict hhead))
        · exact listLT_cons.mpr (.inr (ih (Nat.succ.inj hqr) hstrict htail))

end OpParam

namespace OpDecl

variable {a b c d e : OpDecl}

/-- How much an overload accepts. -/
def breadth (d : OpDecl) : Nat := OpParam.listBreadth d.params

theorem dominates_iff : a.dominates b = true ↔
    OpParam.listLE a.params b.params = true ∧ OpParam.listLT a.params b.params = true := by
  rw [dominates, Bool.and_eq_true]

/-- Dominance goes down in breadth. -/
theorem breadth_lt_of_dominates (hlen : a.params.length = b.params.length)
    (h : a.dominates b = true) : a.breadth < b.breadth :=
  OpParam.listBreadth_lt hlen (dominates_iff.mp h).1 (dominates_iff.mp h).2

theorem not_dominates_self (d : OpDecl) : d.dominates d = false := by
  by_contra h
  have hlt := breadth_lt_of_dominates (a := d) rfl (by simpa using h)
  omega

theorem dominates_trans (hab : a.params.length = b.params.length)
    (hbc : b.params.length = c.params.length) (h : a.dominates b = true)
    (h' : b.dominates c = true) : a.dominates c = true := by
  obtain ⟨hle, hlt⟩ := dominates_iff.mp h
  obtain ⟨hle', hlt'⟩ := dominates_iff.mp h'
  exact dominates_iff.mpr ⟨OpParam.listLE_trans hab hle hle', OpParam.listLT_of_listLE hbc hlt hle'⟩

/-- Dominance among the overloads of one arity is a strict order. -/
theorem isStrictOrder_dominates (arity : Nat) :
    IsStrictOrder { d : OpDecl // d.params.length = arity }
      fun a b => a.val.dominates b.val = true where
  irrefl a h := by
    rw [not_dominates_self] at h
    cases h
  trans a b c := dominates_trans (a.property.trans b.property.symm)
    (b.property.trans c.property.symm)

/-! ## The search and the list -/

/-- The list is of overloads of one arity. -/
def OfArity (arity : Nat) (ds : List OpDecl) : Prop := ∀ d ∈ ds, d.params.length = arity

variable {ds : List OpDecl} {arity : Nat}

/-- The overloads at other positions are those that are left when one is taken out. -/
theorem mem_erase_iff {i : Nat} (hi : ds[i]? = some d) :
    e ∈ ds.erase d ↔ ∃ j, j ≠ i ∧ ds[j]? = some e := by
  obtain ⟨hlt, hget⟩ := List.getElem?_eq_some_iff.mp hi
  -- Which of several equal overloads is taken out makes no difference.
  have hperm : (d :: ds.eraseIdx i).Perm (d :: ds.erase d) := by
    have hidx : (d :: ds.eraseIdx i).Perm ds := by
      simpa only [hget] using List.getElem_cons_eraseIdx_perm hlt
    exact hidx.trans (List.perm_cons_erase (List.mem_of_getElem? hi))
  rw [← hperm.cons_inv.mem_iff, List.mem_eraseIdx_iff_getElem?]

/-- The overload dominates all the others of a list. -/
structure Leads (d : OpDecl) (ds : List OpDecl) : Prop where
  mem : d ∈ ds
  dominates : ∀ e ∈ ds.erase d, d.dominates e = true

/-- No two overloads dominate each other, so only one dominates all others. -/
theorem Leads.eq (hds : OfArity arity ds) (hd : d.Leads ds) (he : e.Leads ds) : d = e := by
  by_contra hne
  have hde : d.dominates e = true := hd.dominates e ((List.mem_erase_of_ne (Ne.symm hne)).mpr he.1)
  have hed : e.dominates d = true := he.dominates d ((List.mem_erase_of_ne hne).mpr hd.1)
  have hlen : d.params.length = e.params.length := (hds d hd.1).trans (hds e he.1).symm
  have hlt := breadth_lt_of_dominates hlen hde
  have hgt := breadth_lt_of_dominates hlen.symm hed
  omega

theorem leads_iff {i : Nat} (hi : ds[i]? = some d) :
    d.Leads ds ↔ (ds.zipIdx.all fun (e, j) => i == j || d.dominates e) = true := by
  rw [List.all_eq_true]
  constructor
  · rintro ⟨-, hothers⟩ ⟨e, j⟩ hmem
    have hj : ds[j]? = some e := List.mem_zipIdx_iff_getElem?.mp hmem
    by_cases hij : i = j
    · simp [hij]
    · have hdom := hothers e ((mem_erase_iff hi).mpr ⟨j, Ne.symm hij, hj⟩)
      simp [hdom]
  · intro hall
    refine ⟨List.mem_of_getElem? hi, fun e he => ?_⟩
    obtain ⟨j, hji, hj⟩ := (mem_erase_iff hi).mp he
    have hor := hall (e, j) (List.mem_zipIdx_iff_getElem?.mpr hj)
    simpa [Ne.symm hji] using hor

/-- The search finds the overload that dominates all the others, if there is one. -/
theorem mostSpecific?_eq_some_iff (hds : OfArity arity ds) :
    mostSpecific? ds = some d ↔ d.Leads ds := by
  unfold mostSpecific?
  rw [Option.map_eq_some_iff]
  constructor
  · rintro ⟨⟨e, i⟩, hfind, rfl⟩
    have hi : ds[i]? = some e := List.mem_zipIdx_iff_getElem?.mp (List.mem_of_find?_eq_some hfind)
    have hall := List.find?_some hfind
    exact (leads_iff hi).mpr hall
  · intro hlead
    obtain ⟨i, hi⟩ := List.mem_iff_getElem?.mp hlead.1
    have hsome : (ds.zipIdx.find? fun (d, i) =>
        ds.zipIdx.all fun (e, j) => i == j || d.dominates e).isSome = true :=
      List.find?_isSome.mpr ⟨(d, i), List.mem_zipIdx_iff_getElem?.mpr hi, (leads_iff hi).mp hlead⟩
    obtain ⟨⟨e, j⟩, hfind⟩ := Option.isSome_iff_exists.mp hsome
    have hj : ds[j]? = some e := List.mem_zipIdx_iff_getElem?.mp (List.mem_of_find?_eq_some hfind)
    have hall := List.find?_some hfind
    -- What is found first leads as well, so it is the same overload.
    exact ⟨(e, j), hfind, Leads.eq hds ((leads_iff hj).mpr hall) hlead⟩

theorem mem_undominated : d ∈ undominated ds ↔ d ∈ ds ∧ ∀ e ∈ ds, e.dominates d = false := by
  unfold undominated
  rw [List.mem_filter]
  simp

/-- Below every overload there is one that nothing dominates: going down, the
    breadth gets smaller. -/
theorem exists_undominated (hds : OfArity arity ds) (hd : d ∈ ds) :
    ∃ m ∈ undominated ds, m = d ∨ m.dominates d = true := by
  induction hb : d.breadth using Nat.strongRecOn generalizing d with
  | ind k ih =>
    subst hb
    by_cases hmin : ∃ e ∈ ds, e.dominates d = true
    · obtain ⟨e, he, hdom⟩ := hmin
      have hed : e.params.length = d.params.length := (hds e he).trans (hds d hd).symm
      obtain ⟨m, hm, hme⟩ := ih e.breadth (breadth_lt_of_dominates hed hdom) he rfl
      refine ⟨m, hm, .inr ?_⟩
      rcases hme with rfl | hme
      · exact hdom
      · have hlen := (hds m (mem_undominated.mp hm).1).trans (hds e he).symm
        exact dominates_trans hlen hed hme hdom
    · refine ⟨d, mem_undominated.mpr ⟨hd, fun e he => ?_⟩, .inl rfl⟩
      by_contra hdom
      exact hmin ⟨e, he, by simpa using hdom⟩

/-- An overload that alone is undominated leads. -/
theorem leads_of_undominated_eq (hds : OfArity arity ds) (h : undominated ds = [d]) :
    d.Leads ds := by
  have hd := mem_undominated.mp (h ▸ List.mem_singleton_self d)
  refine ⟨hd.1, fun e he => ?_⟩
  obtain ⟨m, hm, hme⟩ := exists_undominated hds (List.mem_of_mem_erase he)
  -- Going down from any other overload ends at the only one that is undominated.
  rw [h, List.mem_singleton] at hm
  subst hm
  rcases hme with rfl | hdom
  · -- A second copy would be undominated as well.
    have hcount : (undominated ds).count m = ds.count m := by
      apply List.count_filter
      simpa using hd.2
    have hpos : 0 < (ds.erase m).count m := List.count_pos_iff.mpr he
    rw [List.count_erase_self] at hpos
    rw [h, List.count_singleton_self] at hcount
    omega
  · exact hdom

/-- Where none leads, at least two overloads are undominated. -/
theorem two_le_length_undominated (hds : OfArity arity ds) (hne : ds ≠ [])
    (h : ∀ d : OpDecl, ¬ d.Leads ds) : 2 ≤ (undominated ds).length := by
  obtain ⟨d, hd⟩ := List.exists_mem_of_ne_nil ds hne
  obtain ⟨m, hm, -⟩ := exists_undominated hds hd
  match hu : undominated ds with
  | [] =>
    rw [hu] at hm
    cases hm
  | [e] => exact absurd (leads_of_undominated_eq hds hu) (h e)
  | _ :: _ :: _ => exact Nat.le_add_left 2 _

theorem perm_undominated {ds ds' : List OpDecl} (h : ds.Perm ds') :
    (undominated ds).Perm (undominated ds') := by
  unfold undominated
  have hany : (fun d : OpDecl => !ds.any (·.dominates d)) = fun d => !ds'.any (·.dominates d) := by
    funext d
    rw [h.any_eq]
  rw [hany]
  exact h.filter _

end OpDecl

/-! ## Errors -/

/-- Two errors of one class about the same call that list the same overloads, in
    whatever order. -/
inductive ExpansionError.Rearranged : ExpansionError → ExpansionError → Prop
  | operandCount {name : String} {got : Nat} {ds ds' : List OpDecl} (h : ds.Perm ds') :
    Rearranged (.operandCount name got ds) (.operandCount name got ds')
  | noMatch {name : String} {operands : List Operand} {ds ds' : List OpDecl} (h : ds.Perm ds') :
    Rearranged (.noMatch name operands ds) (.noMatch name operands ds')
  | ambiguous {name : String} {operands : List Operand} {ds ds' : List OpDecl}
    (h : ds.Perm ds') : Rearranged (.ambiguous name operands ds) (.ambiguous name operands ds')

namespace Ops

variable {ops : Ops} {pool pool' : List OpDecl} {call : Instruction} {d e : OpDecl}

/-! ## Matching overloads -/

/-- The overload has the name of the call, and its parameters accept the
    operands one by one. -/
def Matches (ops : Ops) (call : Instruction) (d : OpDecl) : Prop :=
  Text.lower d.name = Text.lower call.head ∧
    List.Forall₂ (fun p o => ops.accepts p.matcher o = true) d.params call.operands

theorem acceptsAll_iff {ps : List OpParam} {os : List Operand} :
    ops.acceptsAll ps os = true ↔
      List.Forall₂ (fun p o => ops.accepts p.matcher o = true) ps os := by
  induction ps generalizing os with
  | nil => cases os <;> simp [acceptsAll]
  | cons p ps ih => cases os <;> simp [acceptsAll, ih]

instance (ops : Ops) (call : Instruction) : DecidablePred (ops.Matches call) := fun _ =>
  decidable_of_iff _ (and_congr_right fun _ => acceptsAll_iff)

/-- The overloads of the call's name and arity. -/
def sameArity (pool : List OpDecl) (call : Instruction) : List OpDecl :=
  (overloadsIn pool (Text.lower call.head)).filter (·.params.length == call.operands.length)

/-- The overloads that match. -/
def candidates (ops : Ops) (pool : List OpDecl) (call : Instruction) : List OpDecl :=
  pool.filter (ops.Matches call)

theorem filter_sameArity (ops : Ops) (pool : List OpDecl) (call : Instruction) :
    (sameArity pool call).filter (ops.acceptsAll ·.params call.operands) =
      ops.candidates pool call := by
  unfold sameArity overloadsIn candidates
  rw [List.filter_filter, List.filter_filter]
  refine List.filter_congr fun d _ => ?_
  rw [Bool.eq_iff_iff, decide_eq_true_iff]
  simp only [Bool.and_eq_true, beq_iff_eq, acceptsAll_iff]
  constructor
  · rintro ⟨⟨haccepts, -⟩, hname⟩
    exact ⟨hname, haccepts⟩
  · rintro ⟨hname, haccepts⟩
    exact ⟨⟨haccepts, haccepts.length_eq⟩, hname⟩

theorem ofArity_candidates (ops : Ops) (pool : List OpDecl) (call : Instruction) :
    OpDecl.OfArity call.operands.length (ops.candidates pool call) := by
  intro d hd
  have hmatches : ops.Matches call d := by simpa using (List.mem_filter.mp hd).2
  exact hmatches.2.length_eq

/-! ## The four ways in which resolution ends -/

theorem resolve_of_sameArity_nil (h : sameArity pool call = []) :
    ops.resolve pool call = .error (.operandCount (Text.lower call.head) call.operands.length
      (overloadsIn pool (Text.lower call.head))) := by
  unfold resolve
  unfold sameArity at h
  simp only [h, List.isEmpty_nil, if_true]

theorem resolve_of_candidates_nil (hne : sameArity pool call ≠ [])
    (h : ops.candidates pool call = []) :
    ops.resolve pool call = .error (.noMatch (Text.lower call.head) call.operands
      (overloadsIn pool (Text.lower call.head))) := by
  rw [← filter_sameArity] at h
  unfold resolve
  unfold sameArity at h hne
  simp only [h, List.isEmpty_nil, if_true, List.isEmpty_iff, hne, if_false]

/-- Without a match the call fails, and not for being ambiguous. -/
theorem exists_error_of_candidates_nil (h : ops.candidates pool call = []) :
    ∃ err, ops.resolve pool call = .error err ∧
      ∀ name operands cs, err ≠ .ambiguous name operands cs := by
  by_cases harity : sameArity pool call = []
  · exact ⟨_, resolve_of_sameArity_nil harity, nofun⟩
  · exact ⟨_, resolve_of_candidates_nil harity h, nofun⟩

/-- With a match, all depends on the search. -/
theorem resolve_of_candidates (hne : ops.candidates pool call ≠ []) :
    ops.resolve pool call =
      match OpDecl.mostSpecific? (ops.candidates pool call) with
      | some d => .ok d
      | none => .error (.ambiguous (Text.lower call.head) call.operands
          (OpDecl.undominated (ops.candidates pool call))) := by
  have harity : sameArity pool call ≠ [] := by
    intro hnil
    rw [← filter_sameArity, hnil] at hne
    exact hne rfl
  rw [← filter_sameArity] at hne ⊢
  rw [ne_eq, ← List.isEmpty_iff] at hne harity
  exact (if_neg harity).trans (if_neg hne)

theorem resolve_of_leads (h : d.Leads (ops.candidates pool call)) :
    ops.resolve pool call = .ok d := by
  have hsearch := (OpDecl.mostSpecific?_eq_some_iff (ops.ofArity_candidates pool call)).mpr h
  rw [resolve_of_candidates (List.ne_nil_of_mem h.mem), hsearch]

theorem resolve_of_tie (hne : ops.candidates pool call ≠ [])
    (h : ∀ d : OpDecl, ¬ d.Leads (ops.candidates pool call)) :
    ops.resolve pool call = .error (.ambiguous (Text.lower call.head) call.operands
      (OpDecl.undominated (ops.candidates pool call))) := by
  have hsearch : OpDecl.mostSpecific? (ops.candidates pool call) = none := by
    rw [Option.eq_none_iff_forall_ne_some]
    intro d hd
    exact h d ((OpDecl.mostSpecific?_eq_some_iff (ops.ofArity_candidates pool call)).mp hd)
  rw [resolve_of_candidates hne, hsearch]

/-- Every resolution is one of the four. -/
theorem resolve_eq_ok_iff : ops.resolve pool call = .ok d ↔ d.Leads (ops.candidates pool call) := by
  refine ⟨fun h => ?_, resolve_of_leads⟩
  by_cases hne : ops.candidates pool call = []
  · obtain ⟨err, herr, _⟩ := exists_error_of_candidates_nil hne
    rw [herr] at h
    cases h
  · rw [resolve_of_candidates hne] at h
    split at h
    · rename_i hsearch
      cases h
      exact (OpDecl.mostSpecific?_eq_some_iff (ops.ofArity_candidates pool call)).mp hsearch
    · cases h

theorem of_resolve_ambiguous {name : String} {operands : List Operand} {cs : List OpDecl}
    (h : ops.resolve pool call = .error (.ambiguous name operands cs)) :
    ops.candidates pool call ≠ [] ∧ (∀ d : OpDecl, ¬ d.Leads (ops.candidates pool call)) ∧
      cs = OpDecl.undominated (ops.candidates pool call) := by
  have hne : ops.candidates pool call ≠ [] := by
    intro hnil
    obtain ⟨err, herr, hkind⟩ := exists_error_of_candidates_nil hnil
    rw [herr] at h
    cases h
    exact hkind _ _ _ rfl
  have hnone : ∀ d : OpDecl, ¬ d.Leads (ops.candidates pool call) := by
    intro d hd
    rw [resolve_of_leads hd] at h
    cases h
  rw [resolve_of_tie hne hnone] at h
  cases h
  exact ⟨hne, hnone, rfl⟩

/-! ## The overload that a call is meant for -/

/-- The overload matches, and it dominates every other overload that does. -/
structure IsMeant (ops : Ops) (pool : List OpDecl) (call : Instruction) (d : OpDecl) : Prop where
  declared : d ∈ pool
  fits : ops.Matches call d
  dominates : ∀ e ∈ pool.erase d, ops.Matches call e → d.dominates e = true

theorem leads_candidates_iff :
    d.Leads (ops.candidates pool call) ↔ ops.IsMeant pool call d := by
  constructor
  · intro h
    obtain ⟨hmem, hfits⟩ := List.mem_filter.mp h.mem
    refine ⟨hmem, by simpa using hfits, fun e he hmatch => h.dominates e ?_⟩
    rw [candidates, List.erase_filter, List.mem_filter]
    exact ⟨he, by simpa using hmatch⟩
  · intro h
    refine ⟨List.mem_filter.mpr ⟨h.declared, by simpa using h.fits⟩, fun e he => ?_⟩
    rw [candidates, List.erase_filter, List.mem_filter] at he
    exact h.dominates e he.1 (by simpa using he.2)

theorem IsMeant.count_eq (h : ops.IsMeant pool call d) : pool.count d = 1 := by
  have hpos : 0 < pool.count d := List.count_pos_iff.mpr h.declared
  by_contra hcount
  have htwin : d ∈ pool.erase d := by
    rw [← List.count_pos_iff, List.count_erase_self]
    omega
  have hself := h.dominates d htwin h.fits
  rw [OpDecl.not_dominates_self] at hself
  cases hself

theorem IsMeant.perm (hperm : pool.Perm pool') (h : ops.IsMeant pool call d) :
    ops.IsMeant pool' call d where
  declared := hperm.mem_iff.mp h.declared
  fits := h.fits
  dominates e he := h.dominates e ((hperm.erase d).mem_iff.mpr he)

/-! ## Other orders of declaration -/

theorem resolve_error_perm (hperm : pool.Perm pool') {err : ExpansionError}
    (h : ops.resolve pool call = .error err) :
    ∃ err', ops.resolve pool' call = .error err' ∧ err.Rearranged err' := by
  have hdeclared := hperm.filter fun d => Text.lower d.name == Text.lower call.head
  have harity : (sameArity pool call).Perm (sameArity pool' call) := hdeclared.filter _
  have hmatch : (ops.candidates pool call).Perm (ops.candidates pool' call) := hperm.filter _
  -- Each way to end asks only which overloads there are, not where they stand.
  by_cases hne : ops.candidates pool call = []
  · have hne' : ops.candidates pool' call = [] := (hne ▸ hmatch).nil_eq.symm
    by_cases hnil : sameArity pool call = []
    · have hnil' : sameArity pool' call = [] := (hnil ▸ harity).nil_eq.symm
      rw [resolve_of_sameArity_nil hnil] at h
      cases h
      exact ⟨_, resolve_of_sameArity_nil hnil', .operandCount hdeclared⟩
    · have hnil' : sameArity pool' call ≠ [] := fun h' => hnil (h' ▸ harity).eq_nil
      rw [resolve_of_candidates_nil hnil hne] at h
      cases h
      exact ⟨_, resolve_of_candidates_nil hnil' hne', .noMatch hdeclared⟩
  · have hne' : ops.candidates pool' call ≠ [] := fun h' => hne (h' ▸ hmatch).eq_nil
    have hnone : ∀ d : OpDecl, ¬ d.Leads (ops.candidates pool call) := by
      intro d hd
      rw [resolve_of_leads hd] at h
      cases h
    have hnone' : ∀ d : OpDecl, ¬ d.Leads (ops.candidates pool' call) := by
      intro d hd
      exact hnone d (leads_candidates_iff.mpr ((leads_candidates_iff.mp hd).perm hperm.symm))
    rw [resolve_of_tie hne hnone] at h
    cases h
    exact ⟨_, resolve_of_tie hne' hnone', .ambiguous (OpDecl.perm_undominated hmatch)⟩

theorem undominated_candidates (ops : Ops) (pool : List OpDecl) (call : Instruction) :
    OpDecl.undominated (ops.candidates pool call) = pool.filter (fun d => ops.Matches call d ∧
      ∀ e ∈ pool, ops.Matches call e → e.dominates d = false) := by
  unfold OpDecl.undominated candidates
  rw [List.filter_filter]
  refine List.filter_congr fun d _ => ?_
  rw [Bool.eq_iff_iff, decide_eq_true_iff]
  simp only [Bool.and_eq_true, Bool.not_eq_true', List.any_eq_false, List.mem_filter,
    decide_eq_true_eq, Bool.not_eq_true, and_imp]
  exact and_comm

/-! ## The result -/

/-- A call goes to the overload that matches and dominates every other one that
    does, of which there is at most one; so it does not matter in which order the
    overloads are declared.  A call that is ambiguous lists the matching overloads
    that no other match dominates, and these are two or more. -/
theorem resolve_mostSpecific (ops : Ops) (pool : List OpDecl) (call : Instruction) :
    (∀ arity, IsStrictOrder { d : OpDecl // d.params.length = arity }
      fun a b => a.val.dominates b.val = true) ∧
    (∀ d, ops.resolve pool call = .ok d ↔ ops.IsMeant pool call d) ∧
    (∀ d e, ops.IsMeant pool call d → ops.IsMeant pool call e → d = e ∧ pool.count d = 1) ∧
    (∀ pool', pool.Perm pool' →
      (∀ d, ops.resolve pool call = .ok d ↔ ops.resolve pool' call = .ok d) ∧
      ∀ err, ops.resolve pool call = .error err →
        ∃ err', ops.resolve pool' call = .error err' ∧ err.Rearranged err') ∧
    ∀ name operands cs, ops.resolve pool call = .error (.ambiguous name operands cs) →
      cs = pool.filter (fun d => ops.Matches call d ∧
        ∀ e ∈ pool, ops.Matches call e → e.dominates d = false) ∧ 2 ≤ cs.length := by
  have hok : ∀ {pool d}, ops.resolve pool call = .ok d ↔ ops.IsMeant pool call d :=
    resolve_eq_ok_iff.trans leads_candidates_iff
  refine ⟨OpDecl.isStrictOrder_dominates, fun _ => hok, fun d e hd he => ⟨?_, hd.count_eq⟩,
    fun pool' hperm => ⟨fun d => ?_, fun err => resolve_error_perm hperm⟩,
    fun name operands cs h => ?_⟩
  · exact (leads_candidates_iff.mpr hd).eq (ops.ofArity_candidates pool call)
      (leads_candidates_iff.mpr he)
  · rw [hok, hok]
    exact ⟨fun h => h.perm hperm, fun h => h.perm hperm.symm⟩
  · obtain ⟨hne, hnone, rfl⟩ := of_resolve_ambiguous h
    exact ⟨undominated_candidates ops pool call,
      OpDecl.two_le_length_undominated (ops.ofArity_candidates pool call) hne hnone⟩

/-- No constants and no typed storage. -/
def constantFree : Ops where
  resolver := .empty

/-- `op load(r: reg16, n: imm16)` -/
def loadWord : OpDecl where
  name := "load"
  params := [{ name := "r", matcher := .reg16 }, { name := "n", matcher := .imm16 }]

/-- `op load(hl, n: imm16)` -/
def loadHL : OpDecl where
  name := "load"
  params := [{ name := "", matcher := .token "HL" }, { name := "n", matcher := .imm16 }]

/-- `op load(r: reg16, n: imm8)` -/
def loadByte : OpDecl where
  name := "load"
  params := [{ name := "r", matcher := .reg16 }, { name := "n", matcher := .imm8 }]

/-- `LOAD hl,3` -/
def loadCall : Instruction := .of "LOAD" [.ofReg "hl", .ofNum 3]

/-- All three overloads match the call.  The widest is dominated by the two
    others, which tie in every order of declaration. -/
theorem load_ties :
    constantFree.resolve [loadWord, loadHL, loadByte] loadCall =
        .error (.ambiguous "load" loadCall.operands [loadHL, loadByte]) ∧
      ∃ err, constantFree.resolve [loadByte, loadHL, loadWord] loadCall = .error err ∧
        (ExpansionError.ambiguous "load" loadCall.operands [loadHL, loadByte]).Rearranged err := by
  have htie : constantFree.resolve [loadWord, loadHL, loadByte] loadCall =
      .error (.ambiguous "load" loadCall.operands [loadHL, loadByte]) := by
    rfl
  have hperm : [loadWord, loadHL, loadByte].Perm [loadByte, loadHL, loadWord] := by
    decide
  have hmain := resolve_mostSpecific constantFree [loadWord, loadHL, loadByte] loadCall
  exact ⟨htie, (hmain.2.2.2.1 _ hperm).2 _ htie⟩

end Ops

end Z80Backend
