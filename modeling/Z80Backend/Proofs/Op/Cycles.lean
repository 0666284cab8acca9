import Mathlib.Data.List.Dedup
import Mathlib.Data.List.Perm.Subperm
import Z80Backend.Proofs.Op.Account

/-! # Chains of expansions

    The chain of an expansion is the way to it from the outermost call.  Each
    level adds a declared op that is not yet on it, so a chain is never longer
    than the list of declared ops, and expansion ends however the ops call each
    other.  The one call that is refused for its chain is that of an op on it.

    * `Ops.IsPath` is kept from level to level.
    * `Account.mem_errors_iff` finds the statement that an error is about.
    * `Ops.expand_chains`: expansion ends, and its chains and cycles. -/

namespace Z80Backend

/-- The names of the declared ops in lower case, each once. -/
def Ops.names (ops : Ops) : List String := (ops.decls.map fun d => Text.lower d.name).dedup

/-! ## Paths -/

namespace Ops

/-- The chain is of declared ops, none of them twice. -/
structure IsPath (ops : Ops) (chain : List String) : Prop where
  nodup : chain.Nodup
  declared : chain ⊆ ops.names

variable {ops : Ops} {chain : List String} {a b : Account}

theorem IsPath.length_le (h : ops.IsPath chain) : chain.length ≤ ops.names.length :=
  (List.subperm_of_subset h.nodup h.declared).length_le

theorem mem_names_of_resolve {i : Instruction} {d : OpDecl}
    (h : ops.resolve ops.decls i = .ok d) : Text.lower i.head ∈ ops.names := by
  obtain ⟨hmem, hname⟩ := List.mem_filter.mp (mem_of_resolve h)
  unfold names
  rw [List.mem_dedup, List.mem_map]
  exact ⟨d, hmem, by simpa using hname⟩

/-- One more level: an op that is not on the chain and can be called. -/
theorem IsPath.extend (h : ops.IsPath chain) {i : Instruction} {d : OpDecl}
    (hfresh : Text.lower i.head ∉ chain) (hresolve : ops.resolve ops.decls i = .ok d) :
    ops.IsPath (chain ++ [Text.lower i.head]) where
  nodup := by
    rw [List.nodup_append]
    refine ⟨h.nodup, List.nodup_singleton _, fun x hx y hy => ?_⟩
    rw [List.mem_singleton] at hy
    intro hxy
    exact hfresh (hy ▸ hxy ▸ hx)
  declared := by
    intro x hx
    rcases List.mem_append.mp hx with hx | hx
    · exact h.declared hx
    · rw [List.mem_singleton.mp hx]
      exact mem_names_of_resolve hresolve

/-- A nested body is of an op that is not on the chain, and adds it. -/
theorem Accounts.extends (h : ops.Accounts a) {i : Instruction} {op : OpUse} {fates : List Fate}
    (hmem : .replaced i op fates ∈ a.fates) :
    op.chain = a.op.chain ++ [op.name] ∧ (ops.IsPath a.op.chain → ops.IsPath op.chain) := by
  obtain ⟨m, m', hfate⟩ := h.mem hmem
  cases hfate with
  | call hop hchain hresolve hbody hsts => exact ⟨rfl, fun hpath => hpath.extend hchain hresolve⟩

theorem Accounts.isPath (h : ops.Accounts a) (hpath : ops.IsPath a.op.chain) (hb : a.Holds b) :
    ops.IsPath b.op.chain := by
  induction hb with
  | self => exact hpath
  | inner hb hmem ih => exact ((h.holds hb).extends hmem).2 ih

/-! ## Cycles -/

theorem invalid?_ne_cyclic {name name' : String} {i : Instruction} {path : List String} :
    ops.invalid? chain name i ≠ some (.cyclic name' path) := by
  unfold invalid?
  split
  · simp
  · split <;> simp

theorem resolve_ne_cyclic {pool : List OpDecl} {i : Instruction} {name : String}
    {path : List String} : ops.resolve pool i ≠ .error (.cyclic name path) := by
  simp only [resolve]
  split
  · simp
  · split
    · simp
    · split <;> simp

/-- A call is refused as cyclic exactly if its op is on the chain. -/
theorem Settles.cyclic_iff {op : OpUse} {f : Fate} {i : Instruction} {m m' : Int}
    (h : ops.Settles op [.instr i] m [f] m') :
    (∃ name path, f = .refused i (.cyclic name path)) ↔
      ops.isOp i.head = true ∧ Text.lower i.head ∈ op.chain := by
  cases h with
  | plain hst => exact absurd rfl (hst i)
  | valid hop => simp [hop]
  | invalid hop hi =>
    simp only [hop, Bool.false_eq_true, false_and, iff_false]
    rintro ⟨name, path, heq⟩
    cases heq
    exact invalid?_ne_cyclic hi
  | cyclic hop hchain => exact ⟨fun _ => ⟨hop, hchain⟩, fun _ => ⟨_, _, rfl⟩⟩
  | unresolved hop hchain hresolve =>
    simp only [hchain, and_false, iff_false]
    rintro ⟨name, path, heq⟩
    cases heq
    exact resolve_ne_cyclic hresolve
  | call hop hchain => simp [hchain]

/-- The path that is reported leads to the op that is called again. -/
theorem Settles.path_eq {op : OpUse} {i : Instruction} {name : String} {path : List String}
    {m m' : Int} (h : ops.Settles op [.instr i] m [.refused i (.cyclic name path)] m') :
    name = Text.lower i.head ∧ path = op.chain ++ [Text.lower i.head] := by
  cases h with
  | invalid _ hi => exact absurd hi invalid?_ne_cyclic
  | cyclic => exact ⟨rfl, rfl⟩
  | unresolved _ _ hresolve => exact absurd hresolve resolve_ne_cyclic

end Ops

/-! ## Errors and statements -/

namespace Account

variable {a b c : Account}

theorem Holds.trans (hab : a.Holds b) (hbc : b.Holds c) : a.Holds c := by
  induction hbc with
  | self => exact hab
  | inner _ hmem ih => exact .inner ih hmem

/-- Every error is about a statement on some level. -/
theorem exists_refused (call : Instruction) (op : OpUse) (fates : List Fate) {e : ExpansionError}
    (he : e ∈ Fate.listErrors fates) :
    ∃ b, { call, op, fates : Account }.Holds b ∧ ∃ i, .refused i e ∈ b.fates := by
  rw [Fate.listErrors_eq_flatMap] at he
  obtain ⟨f, hf, he⟩ := List.mem_flatMap.mp he
  match f with
  | .kept st => cases he
  | .refused i e' =>
    obtain rfl : e = e' := List.mem_singleton.mp he
    exact ⟨_, .self _, i, hf⟩
  | .replaced i op' body =>
    -- The nested body is part of one of the fates, so it is smaller than their list.
    have hsize : sizeOf body < sizeOf fates := by
      have hmem := List.sizeOf_lt_of_mem hf
      simp only [Fate.replaced.sizeOf_spec] at hmem
      omega
    obtain ⟨b, hb, hrefused⟩ := exists_refused i op' body he
    exact ⟨b, Holds.trans (.inner (.self _) hf) hb, hrefused⟩
termination_by sizeOf fates

/-- The errors are those of the statements that are left out, on all levels. -/
theorem mem_errors_iff {e : ExpansionError} :
    e ∈ a.errors ↔ ∃ b, a.Holds b ∧ ∃ i, .refused i e ∈ b.fates := by
  refine ⟨exists_refused a.call a.op a.fates, ?_⟩
  rintro ⟨b, hb, i, hi⟩
  exact hb.errors_sublist.subset (mem_errors.mpr ⟨_, hi, List.mem_singleton_self e⟩)

end Account

/-! ## The result -/

/-- A call that is resolved has exactly one account by rules that look every call
    up among all declared ops, and expansion returns it: it ends.  The chain of
    each nested expansion is that of the one around it and its own name, no name
    is twice on it, and there are no more of them than declared ops.  An error is
    about a statement that is left out, and it is one of a cycle exactly if the
    statement calls an op on the chain of its expansion. -/
theorem Ops.expand_chains (ops : Ops) (call : Instruction) (n : Int) :
    (∀ e, ops.resolve ops.decls call = .error e → ops.expand call n = (none, [e], n)) ∧
    ∀ d, ops.resolve ops.decls call = .ok d → ∃ (a : Account) (n' : Int),
      ops.expand call n = (some a.expansion, a.errors, n') ∧
      a.call = call ∧ a.op.name = Text.lower call.head ∧ a.op.chain = [a.op.name] ∧
      (∀ fates m, ops.Settles a.op
        (d.body.map (d.instantiate call.operands (ops.stem (n + 1))).stmt) (n + 1) fates m ↔
          fates = a.fates ∧ m = n') ∧
      (∀ y, a.expansion.Holds y →
        y.op.chain.Nodup ∧ y.op.chain.length ≤ ops.names.length ∧
        ∀ op body, .nested op body ∈ y.body → op.chain = y.op.chain ++ [op.name]) ∧
      (∀ e, e ∈ a.errors ↔ ∃ b, a.Holds b ∧ ∃ i, .refused i e ∈ b.fates) ∧
      ∀ b, a.Holds b → ∀ f ∈ b.fates, ∀ i, f.source = .instr i →
        ((∃ name path, f = .refused i (.cyclic name path)) ↔
          ops.isOp i.head = true ∧ Text.lower i.head ∈ b.op.chain) ∧
        ∀ name path, f = .refused i (.cyclic name path) →
          path = b.op.chain ++ [Text.lower i.head] ∧
          (ExpansionError.cyclic name path).message =
            "Cyclic op expansion detected for " ++ Text.quote (Text.lower i.head) ++
              ". Expansion chain: " ++ " -> ".intercalate path ++ "." := by
  refine ⟨fun e he => expandCall_of_error (by simp) he, fun d hd => ?_⟩
  obtain ⟨a, n', hexpand, rfl, hop, haccounts, hsettles⟩ := exists_accounts n hd
  have hpath : ops.IsPath a.op.chain := by
    -- The empty path, extended by the call itself.
    rw [hop]
    exact IsPath.extend ⟨List.nodup_nil, List.nil_subset _⟩ (by simp) hd
  refine ⟨a, n', hexpand, rfl, haccounts.name, by rw [hop]; rfl, ?_, ?_,
    fun e => Account.mem_errors_iff, ?_⟩
  · intro fates m
    refine ⟨fun h => hsettles.unique h, ?_⟩
    rintro ⟨rfl, rfl⟩
    exact hsettles
  · intro y hy
    obtain ⟨b, hb, rfl⟩ := Account.exists_of_holds hy
    have hchain : ops.IsPath b.op.chain := haccounts.isPath hpath hb
    refine ⟨hchain.nodup, hchain.length_le, fun op body hmem => ?_⟩
    -- An entry with a nested body comes from a call that is replaced.
    obtain ⟨f, hf, hnode⟩ := Account.mem_expansion_body.mp hmem
    cases f with
    | kept st => cases hnode
    | refused i e => cases hnode
    | replaced i op' fates =>
      cases hnode
      exact ((haccounts.holds hb).extends hf).1
  · intro b hb f hf i hi
    obtain ⟨m, m', hfate⟩ := (haccounts.holds hb).mem hf
    rw [hi] at hfate
    refine ⟨hfate.cyclic_iff, ?_⟩
    rintro name path rfl
    obtain ⟨rfl, rfl⟩ := hfate.path_eq
    exact ⟨rfl, rfl⟩

/-- `op ping()`: calls `pong`. -/
def ping : OpDecl where
  name := "ping"
  body := [.instr (.of "pong" [])]

/-- `op pong()`: increments `a` and calls `ping` again. -/
def pong : OpDecl where
  name := "pong"
  body := [.instr (.of "inc" [.ofReg "a"]), .instr (.of "PING" [])]

/-- Two ops that call each other. -/
def pingPong : Ops where
  resolver := .empty
  decls := [ping, pong]

/-- What `ping` becomes. -/
def pingExpansion : Expansion where
  op := { name := "ping", signature := "ping()", chain := ["ping"], span := {} }
  body := [.nested { name := "pong", signature := "pong()", chain := ["ping", "pong"], span := {} }
    [.stmt (.instr (.of "inc" [.ofReg "a"]))]]

theorem expand_ping : pingPong.expand (.of "Ping" []) 0 =
    (some pingExpansion, [.cyclic "ping" ["ping", "pong", "ping"]], 2) := by
  have hcycle : pingPong.expandCall [] ["ping", "pong"] {} (.of "PING" []) 2 =
      (none, [.cyclic "ping" ["ping", "pong", "ping"]], 2) :=
    Ops.expandCall_of_mem rfl
  have hagain : pingPong.expandStmt [] ["ping", "pong"] {} "pong" (.instr (.of "PING" [])) 2 =
      ([], [.cyclic "ping" ["ping", "pong", "ping"]], 2) :=
    Ops.expandStmt_refused "pong" rfl hcycle
  have hend : pingPong.expandBody [] ["ping", "pong"] {} "pong"
      (pong.instantiate [] (pingPong.stem 2)) [.instr (.of "PING" [])] 2 =
      ([], [.cyclic "ping" ["ping", "pong", "ping"]], 2) :=
    Ops.expandBody_cons_of (s := .instr (.of "PING" [])) hagain Ops.expandBody_nil
  have hpong : pingPong.expandCall [pong] ["ping"] {} (.of "pong" []) 1 =
      (some { op := Ops.useOf ["ping"] {} (.of "pong" []) pong,
              body := [.stmt (.instr (.of "inc" [.ofReg "a"]))] },
        [.cyclic "ping" ["ping", "pong", "ping"]], 2) := by
    have hbody : pingPong.expandDecl [pong] ["ping"] {} (.of "pong" []) pong 1 =
        ([.stmt (.instr (.of "inc" [.ofReg "a"]))], [.cyclic "ping" ["ping", "pong", "ping"]], 2) :=
      Ops.expandBody_cons_of (s := .instr (.of "inc" [.ofReg "a"])) rfl hend
    rw [Ops.expandCall_of_ok (d := pong) rfl rfl, hbody]
  have hping : pingPong.expandDecl pingPong.decls [] {} (.of "Ping" []) ping 0 =
      (pingExpansion.body, [.cyclic "ping" ["ping", "pong", "ping"]], 2) :=
    Ops.expandBody_cons_of (s := .instr (.of "pong" [])) (Ops.expandStmt_call "ping" rfl hpong)
      Ops.expandBody_nil
  show pingPong.expandCall pingPong.decls [] {} (.of "Ping" []) 0 = _
  rw [Ops.expandCall_of_ok (d := ping) rfl rfl, hping]
  rfl

/-- The two ops are expanded once each; the second call of `ping` is refused on
    the level of `pong`. -/
theorem ping_chains :
    pingPong.expand (.of "Ping" []) 0 =
        (some pingExpansion, [.cyclic "ping" ["ping", "pong", "ping"]], 2) ∧
      (∀ y, pingExpansion.Holds y → y.op.chain.Nodup ∧ y.op.chain.length ≤ 2) ∧
      ∃ (b : Account) (i : Instruction),
        .refused i (.cyclic "ping" ["ping", "pong", "ping"]) ∈ b.fates ∧
          pingPong.isOp i.head = true ∧ Text.lower i.head ∈ b.op.chain := by
  obtain ⟨a, n', hexpand, -, -, -, -, hchains, herrors, hcycles⟩ :=
    (Ops.expand_chains pingPong (.of "Ping" []) 0).2 ping rfl
  have hboth := hexpand.symm.trans expand_ping
  have hexpansion : a.expansion = pingExpansion := by
    simpa using congrArg Prod.fst hboth
  have herror : a.errors = [.cyclic "ping" ["ping", "pong", "ping"]] :=
    congrArg (fun r => r.2.1) hboth
  refine ⟨expand_ping, fun y hy => ?_, ?_⟩
  · obtain ⟨hnodup, hlength, -⟩ := hchains y (hexpansion ▸ hy)
    exact ⟨hnodup, hlength⟩
  · obtain ⟨b, hb, i, hi⟩ :=
      (herrors (.cyclic "ping" ["ping", "pong", "ping"])).mp (by simp [herror])
    exact ⟨b, i, hi, ((hcycles b hb _ hi i rfl).1.mp ⟨_, _, rfl⟩)⟩

end Z80Backend
