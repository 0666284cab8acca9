import Z80Backend.Proofs.Address.Pieces

/-! # Effective addresses

    Building an address succeeds with one of three kinds of result: a symbol
    plus an offset, a frame location, or code.  Whatever the base, the index
    and the scale, the result denotes the base plus the index times the scale,
    modulo `2 ^ 16`, with every operand read before the code runs.

    The code pushes, and what a push overwrites can no longer be read.  So the
    cells that the operands consult must lie outside the bytes below the stack
    pointer that the code itself uses.  That is the only condition; it also
    bounds how deep the stack gets, because code that pushed through all of
    memory would leave no cell to consult.

    * `Brings.indexFirst`, `brings_baseFirst`, `Brings.ofPair`: the three ways
      to join a base and an index.
    * `Reaches` says what an address is good for in every state, and
      `reaches_build` that a built address reaches its meaning.
    * `build_denotes` is the result for one state. -/

namespace Z80Backend

namespace Address

variable {σ : String → UInt16}

/-! ## Joining a base and an index -/

section

variable {p : List Step} {k : Nat} {v : Cpu → UInt16} {cells : Cpu → List UInt16}

theorem Brings.scaled (hp : Brings σ p k v cells) {scale : Int64} (hs : 0 < scale)
    (keepDE : Bool) : ∃ j ≤ 2, Brings σ (p ++ scaleHL scale keepDE) (max k j)
      (fun s => v s * imm scale) cells := by
  obtain ⟨j, hj, htidy, hrun⟩ := run_scaleHL hs keepDE
  refine ⟨j, hj, hp.tidy.append htidy, fun s hclear => ?_⟩
  rw [Step.run_append, (hrun σ _).1, hp.hl s fun x hx hbelow =>
    hclear x hx (hbelow.mono (Nat.le_max_left ..))]

theorem Brings.offset (hp : Brings σ p k v cells) (off : Int64) :
    Brings σ (p ++ addOffset off) k (fun s => v s + imm off) cells where
  tidy := hp.tidy.append_zero (tidy_addOffset off)
  hl s hclear := by rw [Step.run_append, hl_addOffset, hp.hl s hclear]

/-- The index goes first and waits on the stack for the base. -/
theorem Brings.indexFirst (hp : Brings σ p k v cells) {c : BaseCode} {b : Base} {j : Nat}
    (hb : Supplies σ c b j) (hreg : ∀ name, b.origin ≠ .reg name) :
    Brings σ (p ++ [Step.push .hl] ++ c.steps ++ [Step.pop .hl, .addHL .de]) (max k (j + 2))
      (fun s => b.address σ s + v s) (fun s => b.cells s ++ cells s) := by
  have hassoc : p ++ [Step.push .hl] ++ c.steps ++ [Step.pop .hl, .addHL .de] =
      p ++ (([Step.push .hl] ++ c.steps ++ [Step.pop .hl]) ++ [Step.addHL .de]) := by simp
  have hj := hb.le_two
  rw [hassoc]
  refine ⟨hp.tidy.append ((hb.tidy.saved .hl (.inl rfl)).append_zero (.step rfl)),
    fun s hclear => ?_⟩
  simp only [List.mem_append, below_max, below_add_two] at hclear
  -- the state in which the base is fetched: the index is in `hl` and on top of the stack
  have hvalue := hp.hl s fun x hx hbelow => hclear x (.inr hx) (.inl hbelow)
  have hkeeps := hp.tidy.keeps σ s
  have hframe := hp.tidy.frame σ s
  rw [Step.run_append, Step.run_append, Step.run_saved]
  generalize Step.run σ p s = t at *
  have hmem : ∀ x ∈ b.cells s, (t.push t.hl).mem x = s.mem x := by
    intro x hx
    have hout := hclear x (.inl hx)
    rw [← hkeeps.sp] at hout
    rw [Cpu.mem_push_of_ne (fun h => hout (.inr (.inl h))) (fun h => hout (.inr (.inr (.inl h)))),
      hframe x fun h => hclear x (.inl hx) (.inl h)]
  obtain ⟨haddr, hcells⟩ : b.address σ (t.push t.hl) = b.address σ s ∧
      b.cells (t.push t.hl) = b.cells s :=
    Base.congr hkeeps.ix (fun name h => absurd h (hreg name)) hmem
  have hde : (Step.run σ c.steps (t.push t.hl)).de = b.address σ s := by
    rw [hb.de, haddr]
    intro x hx hbelow
    rw [hcells] at hx
    rw [Cpu.sp_push, hkeeps.sp] at hbelow
    exact hclear x (.inl hx) (.inr (.inr (.inr hbelow)))
  have htop := hb.tidy.wordAt_sp (by omega) σ t t.hl
  show (Step.run σ c.steps (t.push t.hl)).wordAt (Step.run σ c.steps (t.push t.hl)).sp +
    (Step.run σ c.steps (t.push t.hl)).de = _
  rw [htop, hde, hvalue, UInt16.add_comm]

/-- A pair waits on the stack for the index.  The stack must have room for it
    below the cells that the index consults. -/
theorem Brings.ofPair (hp : Brings σ p k v cells) (hroom : k ≤ 2 ∨ ∀ s, cells s ≠ [])
    (hcongr : ∀ s w, (∀ x ∈ cells s, (s.push w).mem x = s.mem x) →
      v (s.push w) = v s ∧ cells (s.push w) = cells s) (r : WordReg) :
    Brings σ ([Step.push r.onStack] ++ p ++ [Step.pop .de, .addHL .de]) (k + 2)
      (fun s => s.word r + v s) cells := by
  have hassoc : [Step.push r.onStack] ++ p ++ [Step.pop .de, .addHL .de] =
      ([Step.push r.onStack] ++ p ++ [Step.pop .de]) ++ [Step.addHL .de] := by simp
  rw [hassoc]
  refine ⟨(hp.tidy.saved r.onStack (.inr rfl)).append_zero (.step rfl), fun s hclear => ?_⟩
  have hstacked : s.stacked r.onStack = s.word r := by cases r <;> rfl
  -- a cell outside the stack leaves less than all of memory to the stack
  have hk : k + 2 ≤ 65536 := by
    rcases hroom with hle | hne
    · omega
    · obtain ⟨x, hx⟩ := List.exists_mem_of_ne_nil _ (hne s)
      exact Nat.le_of_lt (lt_of_not_below (hclear x hx))
  simp only [below_add_two] at hclear
  obtain ⟨hv, hcells⟩ := hcongr s (s.word r) fun x hx =>
    Cpu.mem_push_of_ne (fun h => hclear x hx (.inl h)) (fun h => hclear x hx (.inr (.inl h)))
  have hhl : (Step.run σ p (s.push (s.word r))).hl = v s := by
    rw [hp.hl, hv]
    intro x hx hbelow
    rw [hcells] at hx
    exact hclear x hx (.inr (.inr hbelow))
  have htop := hp.tidy.wordAt_sp hk σ s (s.word r)
  rw [Step.run_append, Step.run_saved, hstacked]
  show (Step.run σ p (s.push (s.word r))).hl +
    (Step.run σ p (s.push (s.word r))).wordAt (Step.run σ p (s.push (s.word r))).sp = _
  rw [htop, hhl, UInt16.add_comm]

end

/-- The base goes first and waits in `de` for an index that does not need what
    the base destroys. -/
theorem brings_baseFirst {c : IndexCode} {e : IndexTree} {k : Nat} (hc : Fetches σ c e k)
    {d : BaseCode} {b : Base} {j : Nat} (hb : Supplies σ d b j) {scale : Int64} (hs : 0 < scale)
    (hde : c.usesDE = false) (hreads : c.readsDE = false)
    (hhl : d.clobbersHL = true → c.readsHL = false) :
    ∃ m, Brings σ (d.steps ++ c.steps ++ scaleHL scale true ++ [Step.addHL .de]) m
      (fun s => b.address σ s + e.value σ s * imm scale) (fun s => b.cells s ++ e.cells σ s) := by
  obtain ⟨m, -, htidy, hrun⟩ := run_scaleHL hs true
  refine ⟨max (max j k) m, ((hb.tidy.append hc.tidy).append htidy).append_zero (.step rfl),
    fun s hclear => ?_⟩
  simp only [List.mem_append, below_max] at hclear
  have hkeeps := hb.tidy.keeps σ s
  have hbase := hb.de s fun x hx hbelow => hclear x (.inl hx) (.inl (.inl hbelow))
  have hframe := hb.tidy.frame σ s
  have hsame : d.clobbersHL = false → (Step.run σ d.steps s).hl = s.hl := fun h => hb.hl h s
  rw [Step.run_append, Step.run_append, Step.run_append]
  generalize Step.run σ d.steps s = t at *
  -- the index reads the same in the state that the base leaves
  obtain ⟨hvalue, hcells⟩ : e.value σ t = e.value σ s ∧ e.cells σ t = e.cells σ s := by
    apply e.congr hkeeps.a hkeeps.bc hkeeps.ix hkeeps.iy
    · intro hreadsHL
      have h := hc.readsHL hreadsHL
      rw [hde, Bool.false_or] at h
      apply hsame
      by_cases hclob : d.clobbersHL = true
      · rw [hhl hclob] at h
        exact absurd h (by decide)
      · simpa using hclob
    · intro hreadsDE
      have h := hc.readsDE hreadsDE
      rw [hde, hreads] at h
      exact absurd h (by decide)
    · intro x hx
      exact hframe x fun hbelow => hclear x (.inr hx) (.inl (.inl hbelow))
  have hindex : (Step.run σ c.steps t).hl = e.value σ s := by
    rw [hc.hl, hvalue]
    intro x hx hbelow
    rw [hcells] at hx
    rw [hkeeps.sp] at hbelow
    exact hclear x (.inr hx) (.inl (.inr hbelow))
  obtain ⟨hscaled, hkept⟩ := hrun σ (Step.run σ c.steps t)
  show (Step.run σ (scaleHL scale true) (Step.run σ c.steps t)).hl +
    (Step.run σ (scaleHL scale true) (Step.run σ c.steps t)).de = _
  rw [hscaled, hkept (.inl rfl), hc.de hde, hindex, hbase, UInt16.add_comm]

/-- Whichever goes first, a base and an index are joined. -/
theorem brings_join {c : IndexCode} {e : IndexTree} {k : Nat} (hc : Fetches σ c e k)
    {d : BaseCode} {b : Base} {j : Nat} (hb : Supplies σ d b j)
    (hreg : ∀ name, b.origin ≠ .reg name) {scale : Int64} (hs : 0 < scale) :
    ∃ m, Brings σ (join c d scale) m
      (fun s => b.address σ s + e.value σ s * imm scale) (fun s => b.cells s ++ e.cells σ s) := by
  unfold join
  by_cases h : (c.usesDE || c.readsDE || (d.clobbersHL && c.readsHL)) = true
  · rw [if_pos h]
    obtain ⟨m, -, hscaled⟩ := hc.toBrings.scaled hs false
    exact ⟨_, hscaled.indexFirst hb hreg⟩
  · rw [if_neg h]
    simp only [Bool.or_eq_true, Bool.and_eq_true, not_or, not_and, Bool.not_eq_true] at h
    exact brings_baseFirst hc hb hs h.1.1 h.1.2 h.2

/-! ## Addresses that reach their meaning -/

/-- What an address stands for, in every state. -/
def Reaches (σ : String → UInt16) (v : Cpu → UInt16) (cells : Cpu → List UInt16) :
    Address → Prop
  | absolute sym off => ∀ s, symbolAddr σ sym + imm off = v s
  | frame d => ∀ s : Cpu, s.ix + imm d = v s
  | computed steps => ∃ k, Brings σ steps k v cells

section

variable {v : Cpu → UInt16} {cells : Cpu → List UInt16}

/-- An address can be brought to `hl`, whatever its kind. -/
theorem Reaches.toHL {a : Address} (h : Reaches σ v cells a) :
    ∃ k, Brings σ a.toHL k v cells := by
  cases a with
  | computed steps => exact h
  | frame d => exact ⟨2, tidy_framePointer d, fun s _ => (hl_framePointer d s).trans (h s)⟩
  | absolute sym off =>
    simp only [Address.toHL]
    by_cases hempty : sym = ""
    · rw [if_pos hempty]
      refine ⟨0, .step rfl, fun s _ => ?_⟩
      have hs := h s
      rw [hempty] at hs
      exact (UInt16.zero_add _).symm.trans hs
    · rw [if_neg hempty]
      exact ⟨0, .step rfl, fun s _ => h s⟩

/-- The code that replaces an address in `hl` by the value stored there. -/
theorem hl_fetch (isByte : Bool) (t : Cpu) :
    (Step.run σ (if isByte then [.loadByte .l .hl, .ldByte .h 0]
      else [.loadByte .e .hl, .inc .hl, .loadByte .d .hl, .exDEHL]) t).hl = t.read isByte t.hl := by
  cases isByte with
  | true => simp [Step.exec, Cpu.setByte, read_byte]
  | false => simp [Step.exec, Cpu.setByte, Cpu.setWord, Cpu.word, Cpu.read, Cpu.wordAt]

/-- The value at an inner address is an index once the address is reached. -/
theorem Reaches.fetches {a : Address} {b : Base} {e : IndexTree} {scale : Int64} {isByte : Bool}
    {c : IndexCode}
    (h : Reaches σ (fun s => b.address σ s + e.value σ s * imm scale)
      (fun s => b.cells s ++ e.cells σ s) a)
    (hc : indexCode (.stored a isByte) = .ok c) :
    ∃ k, Fetches σ c (.element b e scale isByte) k := by
  cases hc
  obtain ⟨k, hk⟩ := h.toHL
  refine ⟨k, ⟨hk.tidy.append_zero (.quiet ?_), fun s hclear => ?_⟩, nofun, fun _ => rfl,
    fun _ => rfl, .inr fun s hnil => ?_⟩
  · cases isByte <;> simp [Step.isQuiet]
  · simp only [IndexTree.cells, List.mem_append] at hclear
    have hhl := hk.hl s fun x hx => hclear x (.inl (List.mem_append.1 hx))
    rw [Step.run_append, hl_fetch, hhl]
    exact Cpu.read_congr fun x hx => hk.tidy.frame σ s x (hclear x (.inr hx))
  · have hcells := (List.append_eq_nil_iff.1 hnil).2
    cases isByte <;> simp [cellsAt] at hcells

/-! ## Building -/

theorem reaches_ofBase {b : Base} {a : Address} (h : ofBase b = .ok a) :
    Reaches σ (fun s => b.address σ s) (fun s => b.cells s) a := by
  obtain ⟨o, off⟩ := b
  unfold ofBase at h
  cases o with
  | unknown k => simp at h
  | global sym =>
    cases h
    exact fun s => rfl
  | frame d =>
    have haddr : ∀ s : Cpu, s.ix + imm (d + off) = Base.address σ s ⟨.frame d, off⟩ := by
      intro s
      rw [imm_add, ← UInt16.add_assoc]
      rfl
    simp only at h
    split at h
    · cases h
      exact haddr
    · cases h
      exact ⟨2, tidy_framePointer _, fun s _ => (hl_framePointer _ s).trans (haddr s)⟩
  | pointer d =>
    simp only at h
    split at h
    · simp at h
    cases h
    have hfetch : Brings σ [.loadByte .l (.slot d), .loadByte .h (.slot (d + 1))] 0
        (fun s => s.wordAt (s.ix + imm d)) (fun s => cellsAt false (s.ix + imm d)) :=
      ⟨.quiet (by simp [Step.isQuiet]), fun s _ => congrArg Cpu.hl (run_fetchSlot .hl d s)⟩
    exact ⟨0, hfetch.offset off⟩
  | reg name =>
    have hcopy : ∀ r, WordReg.ofName? name = some r → ∀ steps,
        (∀ st ∈ steps, st.isQuiet = true) → (∀ s, (Step.run σ steps s).hl = s.word r) →
        Reaches σ (fun s => Base.address σ s ⟨.reg name, off⟩) (fun _ => [])
          (.computed (steps ++ addOffset off)) := by
      intro r hr steps hquiet hhl
      have hbrings : Brings σ steps 0 (fun s => s.word r) (fun _ => []) :=
        ⟨.quiet hquiet, fun s _ => hhl s⟩
      have haddr : ∀ s : Cpu, Base.address σ s ⟨.reg name, off⟩ = s.word r + imm off := by
        intro s
        simp [Base.address, hr]
      simp only [haddr]
      exact ⟨0, hbrings.offset off⟩
    simp only at h
    split at h <;> rename_i hr
    · cases h
      exact hcopy .hl hr [] (by simp) fun s => rfl
    · cases h
      exact hcopy .de hr _ (by simp [Step.isQuiet]) fun s => by
        simp [Step.exec, Cpu.setByte, Cpu.byte, Cpu.word]
    · cases h
      exact hcopy .bc hr _ (by simp [Step.isQuiet]) fun s => by
        simp [Step.exec, Cpu.setByte, Cpu.byte, Cpu.word]
    · simp at h

end

section

variable {e : IndexTree} {i : Index} {scale : Int64}

theorem reaches_fromReg (hf : ∀ c, indexCode i = .ok c → ∃ k, Fetches σ c e k) (hs : 0 < scale)
    {name : String} {off : Int64} {a : Address} (h : fromReg name off i scale = .ok a) :
    Reaches σ (fun s => Base.address σ s ⟨.reg name, off⟩ + e.value σ s * imm scale)
      (fun s => e.cells σ s) a := by
  unfold fromReg at h
  split at h
  · simp at h
  rename_i r hr
  split at h
  · simp at h
  rename_i c hc
  cases h
  obtain ⟨k, hk⟩ := hf c hc
  obtain ⟨j, hj, hscaled⟩ := hk.toBrings.scaled hs false
  have hroom : max k j ≤ 2 ∨ ∀ s, e.cells σ s ≠ [] := by
    rcases hk.room with hle | hne
    · exact .inl (Nat.max_le.2 ⟨hle, hj⟩)
    · exact .inr hne
  have hcongr : ∀ (s : Cpu) w, (∀ x ∈ e.cells σ s, (s.push w).mem x = s.mem x) →
      e.value σ (s.push w) * imm scale + imm off = e.value σ s * imm scale + imm off ∧
        e.cells σ (s.push w) = e.cells σ s := by
    intro s w hmem
    obtain ⟨hvalue, hcells⟩ := e.congr (s := s) (t := s.push w) rfl rfl rfl rfl (fun _ => rfl)
      (fun _ => rfl) hmem
    exact ⟨by rw [hvalue], hcells⟩
  have haddr : ∀ s : Cpu, Base.address σ s ⟨.reg name, off⟩ + e.value σ s * imm scale =
      s.word r + (e.value σ s * imm scale + imm off) := by
    intro s
    have hbase : Base.address σ s ⟨.reg name, off⟩ = s.word r + imm off := by
      simp [Base.address, hr]
    rw [hbase]
    grind
  simp only [haddr]
  have hpair := (hscaled.offset off).ofPair hroom hcongr r
  simp only [List.append_assoc] at hpair ⊢
  exact ⟨_, hpair⟩

theorem reaches_indexedBy (hf : ∀ c, indexCode i = .ok c → ∃ k, Fetches σ c e k)
    (hs : 0 < scale) {b : Base} {a : Address} (h : indexedBy b i scale = .ok a) :
    Reaches σ (fun s => b.address σ s + e.value σ s * imm scale)
      (fun s => b.cells s ++ e.cells σ s) a := by
  unfold indexedBy at h
  split at h
  · rename_i name hname
    obtain ⟨o, off⟩ := b
    cases hname
    exact reaches_fromReg hf hs h
  · split at h
    · simp at h
    rename_i c hc
    split at h
    · simp at h
    rename_i d hd
    cases h
    obtain ⟨k, hk⟩ := hf c hc
    obtain ⟨hreg, j, hj⟩ := supplies_of_baseCode (σ := σ) hd
    exact brings_join hk hj hreg hs

/-- A constant index is a constant number of bytes. -/
theorem reaches_atConst {b : Base} {n : Int64} {a : Address} (h : atConst b n = .ok a) :
    Reaches σ (fun s => b.address σ s + imm n) (fun s => b.cells s) a := by
  have hindexed : indexedBy b (.const n) 1 = .ok a →
      Reaches σ (fun s => b.address σ s + imm n) (fun s => b.cells s) a := by
    intro h
    have hr : Reaches σ (fun s => b.address σ s + (IndexTree.const n).value σ s * imm 1)
        (fun s => b.cells s ++ (IndexTree.const n).cells σ s) a :=
      reaches_indexedBy (fun c hc => ⟨0, by cases hc; exact fetches_const n⟩) (by decide) h
    simpa [IndexTree.value, IndexTree.cells] using hr
  unfold atConst at h
  split at h
  · rename_i d hd
    split at h
    · cases h
      intro s
      have hbase : b.address σ s = s.ix + imm d + imm b.offset := by simp [Base.address, hd]
      show s.ix + imm (d + b.offset + n) = b.address σ s + imm n
      rw [hbase, imm_add, imm_add]
      grind
    · exact hindexed h
  · exact hindexed h

/-- A built address reaches the base plus the index times the scale. -/
theorem reaches_build (hi : e.index = .ok i)
    (hf : ∀ c, indexCode i = .ok c → ∃ k, Fetches σ c e k) {b : Base} {a : Address}
    (h : build b i scale = .ok a) :
    Reaches σ (fun s => b.address σ s + e.value σ s * imm scale)
      (fun s => b.cells s ++ e.cells σ s) a := by
  unfold build at h
  split at h
  · simp at h
  rename_i hscale
  have hs : 0 < scale := Int64.not_le.1 hscale
  cases e with
  | none =>
    cases hi
    have hr : Reaches σ (fun s => b.address σ s) (fun s => b.cells s) a := reaches_ofBase h
    simpa [IndexTree.value, IndexTree.cells] using hr
  | const n =>
    cases hi
    have hr : Reaches σ (fun s => b.address σ s + imm (n * scale)) (fun s => b.cells s) a :=
      reaches_atConst h
    simpa [IndexTree.value, IndexTree.cells, imm_mul] using hr
  | reg8 | reg16 | global | slot | memHL | memIndexed =>
    cases hi
    exact reaches_indexedBy hf hs h
  | element =>
    obtain ⟨j, a', -, -, rfl⟩ := IndexTree.index_element hi
    exact reaches_indexedBy hf hs h

end

/-- The code of any index, by induction on the addresses inside it. -/
theorem fetches_of_indexCode {e : IndexTree} {i : Index} {c : IndexCode} (hi : e.index = .ok i)
    (hc : indexCode i = .ok c) : ∃ k, Fetches σ c e k := by
  induction e generalizing i c with
  | none =>
    cases hi
    exact nomatch hc
  | const n =>
    cases hi
    cases hc
    exact ⟨0, fetches_const n⟩
  | reg8 name =>
    cases hi
    exact ⟨0, fetches_reg8 hc⟩
  | reg16 name =>
    cases hi
    exact fetches_reg16 hc
  | global sym off isByte =>
    cases hi
    exact ⟨0, fetches_global hc⟩
  | slot d isByte =>
    cases hi
    exact ⟨0, fetches_slot hc⟩
  | memHL =>
    cases hi
    cases hc
    exact ⟨0, fetches_memHL⟩
  | memIndexed reg d =>
    cases hi
    cases hc
    exact ⟨0, fetches_memIndexed reg d⟩
  | element b e scale isByte ih =>
    obtain ⟨j, a, hj, ha, rfl⟩ := IndexTree.index_element hi
    have ha' := reaches_build hj (fun c' hc' => ih hj hc') ha
    exact ha'.fetches hc

/-! ## The address denoted in one state -/

/-- The bytes that the code of an address overwrites. -/
def scratch (σ : String → UInt16) (s : Cpu) : Address → List UInt16
  | computed steps => Step.pushed σ steps s
  | _ => []

/-- Steps that leave a value in `hl`, the other registers as they were, and
    memory too, apart from the bytes below the stack pointer that they push
    to.  Those are the next bytes in order, so nothing at the stack pointer or
    above it is written unless they run past address zero. -/
structure Leaves (σ : String → UInt16) (s : Cpu) (v : UInt16) (steps : List Step) : Prop where
  hl : (Step.run σ steps s).hl = v
  keeps : s.Keeps (Step.run σ steps s)
  frame : ∀ x, x ∉ Step.pushed σ steps s → (Step.run σ steps s).mem x = s.mem x
  stack : ∃ k, (∀ x, x ∈ Step.pushed σ steps s ↔ Below s.sp k x) ∧
    (k ≤ s.sp.toNat → ∀ x, s.sp ≤ x → (Step.run σ steps s).mem x = s.mem x)

/-- The address denotes `v` in a state. -/
def Denotes (σ : String → UInt16) (s : Cpu) (v : UInt16) : Address → Prop
  | absolute sym off => symbolAddr σ sym + imm off = v
  | frame d => s.ix + imm d = v
  | computed steps => Leaves σ s v steps

/-- Code that brings a value leaves it, in a state whose cells are clear of
    the stack. -/
theorem Brings.leaves {steps : List Step} {k : Nat} {v : Cpu → UInt16}
    {cells : Cpu → List UInt16} (h : Brings σ steps k v cells) {s : Cpu}
    (hclear : ∀ x ∈ cells s, x ∉ Step.pushed σ steps s) : Leaves σ s (v s) steps := by
  have hpushed := h.tidy.mem_pushed σ s
  have hframe : ∀ x, x ∉ Step.pushed σ steps s → (Step.run σ steps s).mem x = s.mem x := by
    intro x hx
    exact h.tidy.frame σ s x fun hbelow => hx ((hpushed x).2 hbelow)
  refine ⟨h.hl s fun x hx hbelow => hclear x hx ((hpushed x).2 hbelow), h.tidy.keeps σ s, hframe,
    k, hpushed, fun hk x hx => hframe x fun hmem => ?_⟩
  have hlt : x < s.sp := ((hpushed x).1 hmem).lt hk
  exact absurd hx (UInt16.not_le.2 hlt)

/-- A built address denotes the base plus the index times the scale, all read
    in the state before its code runs, as long as the code does not overwrite
    the cells that are read. -/
theorem build_denotes (σ : String → UInt16) (s : Cpu) {b : Base} {e : IndexTree} {i : Index}
    {scale : Int64} {a : Address} (hi : e.index = .ok i) (ha : build b i scale = .ok a)
    (hclear : ∀ x ∈ b.cells s ++ e.cells σ s, x ∉ a.scratch σ s) :
    a.Denotes σ s (b.address σ s + e.value σ s * imm scale) := by
  have hreach : Reaches σ (fun s => b.address σ s + e.value σ s * imm scale)
      (fun s => b.cells s ++ e.cells σ s) a :=
    reaches_build hi (fun c hc => fetches_of_indexCode hi hc) ha
  cases a with
  | absolute sym off => exact hreach s
  | frame d => exact hreach s
  | computed steps =>
    obtain ⟨k, hk⟩ := hreach
    exact hk.leaves hclear

/-- A byte of the row whose address, less two, is in a frame slot; the byte is
    the one with three times the number in `a`. -/
def rowByte : IndexTree := .element ⟨.pointer (-6), 2⟩ (.reg8 "a") 3 true

/-- A state in which each memory cell holds the low byte of its address. -/
def rowCpu : Cpu where
  a := 2
  bc := 0
  de := 0
  hl := 0x8000
  ix := 0xC000
  iy := 0
  sp := 0xF000
  mem := lowByte

/-- The slot holds `0xFBFA`, so the byte is at `0xFC02`, and six times it past
    `hl + 4` is `0x8010`. -/
theorem table_indexed_by_rowByte : ∃ i a, rowByte.index = .ok i ∧
    build ⟨.reg "hl", 4⟩ i 6 = .ok a ∧
    (∀ x ∈ Base.cells rowCpu ⟨.reg "hl", 4⟩ ++ rowByte.cells (fun _ => 0) rowCpu,
      x ∉ a.scratch (fun _ => 0) rowCpu) ∧
    a.Denotes (fun _ => 0) rowCpu 0x8010 := by
  have hvalue : Base.address (fun _ => 0) rowCpu ⟨.reg "hl", 4⟩ +
      rowByte.value (fun _ => 0) rowCpu * imm 6 = 0x8010 := by decide +kernel
  refine ⟨_, _, rfl, rfl, not_mem_of_all (by decide +kernel), ?_⟩
  rw [← hvalue]
  exact build_denotes (fun _ => 0) rowCpu rfl rfl (not_mem_of_all (by decide +kernel))

end Address

end Z80Backend
