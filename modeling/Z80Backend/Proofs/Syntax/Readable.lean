import Z80Backend.Proofs.Control.Labels
import Z80Backend.Syntax.Expr

/-! # Expressions can be read back

    The text of an expression brackets right operands only.  So it is a chain: an
    operand that is not binary, and then operators, each with its right operand.
    A chain can be cut up in one way only.  An operand ends where the characters
    of names end, no symbol of an operator begins another one, and a bracket is
    closed by what the expression in it does not take.

    * `Expr.atom_inj`: operands that are not binary.
    * `Expr.steps_inj`: operators with their operands, one after the other.
    * `Expr.text_eq_iff`: expressions, by induction on their size. -/

namespace Z80Backend

/-! ## Runs of characters -/

namespace Text

/-- The characters around names. -/
def marks : List Char :=
  ['+', '-', '*', '/', '%', '&', '|', '^', '<', '>', '(', ')', '[', ']', ',', ' ']

/-- A character that names are made of. -/
def isNameChar (c : Char) : Bool := !marks.contains c

/-- A name, perhaps with dots. -/
def isName (s : String) : Bool := s != "" && s.toList.all isNameChar

/-- A run of characters of one kind is split off in one way. -/
theorem run_inj {p : Char → Bool} {w w' x x' : List Char} (hw : ∀ c ∈ w, p c = true)
    (hw' : ∀ c ∈ w', p c = true) (hx : ∀ c ∈ x.head?, p c = false)
    (hx' : ∀ c ∈ x'.head?, p c = false) (h : w ++ x = w' ++ x') : w = w' ∧ x = x' := by
  induction w generalizing w' with
  | nil =>
    cases w' with
    | nil => exact ⟨rfl, h⟩
    | cons c w' =>
      have hc := hx c (by rw [← List.nil_append x, h]; rfl)
      rw [hw' c List.mem_cons_self] at hc
      cases hc
  | cons c w ih =>
    cases w' with
    | nil =>
      have hc := hx' c (by rw [← List.nil_append x', ← h]; rfl)
      rw [hw c List.mem_cons_self] at hc
      cases hc
    | cons c' w' =>
      obtain ⟨rfl, hrest⟩ := List.cons.inj h
      obtain ⟨rfl, rfl⟩ := ih (fun c hc => hw c (List.mem_cons_of_mem _ hc))
        (fun c hc => hw' c (List.mem_cons_of_mem _ hc)) hrest
      exact ⟨rfl, rfl⟩

/-- The characters of a name end at a mark. -/
theorem name_inj {w w' x x' : List Char} {c c' : Char} (hw : ∀ c ∈ w, isNameChar c = true)
    (hw' : ∀ c ∈ w', isNameChar c = true) (hc : isNameChar c = false)
    (hc' : isNameChar c' = false) (h : w ++ c :: x = w' ++ c' :: x') :
    w = w' ∧ c = c' ∧ x = x' := by
  have hhead : ∀ {c : Char} {x : List Char}, isNameChar c = false →
      ∀ d ∈ (c :: x).head?, isNameChar d = false := by
    intro c x hc d hd
    rw [← Option.some.inj hd]
    exact hc
  obtain ⟨rfl, hrest⟩ := run_inj hw hw' (hhead hc) (hhead hc') h
  exact ⟨rfl, List.cons.inj hrest⟩

theorem isNameChar_of_isDigit {c : Char} (h : c.isDigit = true) : isNameChar c = true := by
  have hall : marks.all (!·.isDigit) = true := by decide
  unfold isNameChar
  rw [Bool.not_eq_true', Bool.eq_false_iff, ne_eq, List.contains_iff_mem]
  intro hmem
  have hc := List.all_eq_true.mp hall c hmem
  rw [h] at hc
  cases hc

/-- A number is written with digits, after a minus sign if it is negative. -/
theorem decimal_cases (n : Int64) : ∃ c w, (decimal n).toList = c :: w ∧
    (∀ x ∈ w, x.isDigit = true) ∧ (c.isDigit = true ∨ c = '-' ∧ n.toInt < 0) := by
  have hdigits : ∀ (m : Nat), ∀ x ∈ m.repr.toList, x.isDigit = true := by
    intro m x hx
    rw [Nat.toList_repr] at hx
    exact Nat.isDigit_of_mem_toDigits (by decide) (by decide) hx
  unfold decimal
  generalize n.toInt = k
  cases k with
  | ofNat m =>
    have hlist : (Int.ofNat m).repr.toList = m.repr.toList := rfl
    rw [hlist]
    cases hm : m.repr.toList with
    | nil => exact absurd (Nat.toList_repr.symm.trans hm) Nat.toDigits_ne_nil
    | cons c w =>
      have hall := hdigits m
      rw [hm] at hall
      exact ⟨c, w, rfl, fun x hx => hall x (List.mem_cons_of_mem _ hx),
        .inl (hall c List.mem_cons_self)⟩
  | negSucc m =>
    exact ⟨'-', _, Label.negRepr_toList m, hdigits _, .inr ⟨rfl, Int.negSucc_lt_zero m⟩⟩

theorem decimal_inj {m n : Int64} (h : (decimal m).toList = (decimal n).toList) : m = n :=
  Int64.toInt_inj.mp (Label.intRepr_inj h)

/-- A number that is not negative is written with characters of names. -/
theorem isNameChar_decimal {n : Int64} (hn : 0 ≤ n.toInt) {c : Char} (hc : c ∈ (decimal n).toList) :
    isNameChar c = true := by
  obtain ⟨d, w, hlist, hw, hd⟩ := decimal_cases n
  rw [hlist] at hc
  rcases List.mem_cons.mp hc with rfl | hc
  · rcases hd with hd | ⟨_, hneg⟩
    · exact isNameChar_of_isDigit hd
    · omega
  · exact isNameChar_of_isDigit (hw c hc)

theorem isNameChar_of_isName {s : String} (h : isName s = true) :
    ∀ c ∈ s.toList, isNameChar c = true := by
  rw [isName, Bool.and_eq_true, List.all_eq_true] at h
  exact h.2

theorem isName_cons {s : String} (h : isName s = true) : ∃ c w, s.toList = c :: w ∧
    isNameChar c = true ∧ ∀ x ∈ w, isNameChar x = true := by
  have hall := isNameChar_of_isName h
  cases hs : s.toList with
  | nil =>
    rw [isName, String.toList_injective (hs.trans String.toList_empty.symm)] at h
    cases h
  | cons c w =>
    rw [hs] at hall
    exact ⟨c, w, rfl, List.forall_mem_cons.mp hall⟩

/-- The text of a path is a name with dots. -/
theorem isNameChar_path {path : List String} (h : ∀ f ∈ path, isName f = true) :
    ∀ c ∈ (".".intercalate path).toList, isNameChar c = true := by
  induction path with
  | nil => exact nofun
  | cons f fs ih =>
    have hrest := ih fun g hg => h g (List.mem_cons_of_mem _ hg)
    intro c hc
    cases fs with
    | nil => exact isNameChar_of_isName (h f List.mem_cons_self) c (by simpa using hc)
    | cons g gs =>
      simp only [String.toList_intercalate, List.map_cons, List.intercalate_cons_cons,
        List.mem_append] at hc hrest
      rcases hc with (hc | hc) | hc
      · exact isNameChar_of_isName (h f List.mem_cons_self) c hc
      · rw [List.mem_singleton.mp hc]
        decide
      · exact hrest c hc

/-- A path of names without dots is cut up at its dots. -/
theorem path_inj {path path' : List String} (hp : ∀ f ∈ path, isName f = true ∧ '.' ∉ f.toList)
    (hp' : ∀ f ∈ path', isName f = true ∧ '.' ∉ f.toList)
    (h : (".".intercalate path).toList = (".".intercalate path').toList) : path = path' := by
  rw [String.toList_intercalate, String.toList_intercalate] at h
  -- without names there is no text
  have hnil : ∀ {path : List String}, (∀ f ∈ path, isName f = true ∧ '.' ∉ f.toList) →
      ".".toList.intercalate (path.map String.toList) = [] → path = [] := by
    intro path hp hempty
    cases path with
    | nil => rfl
    | cons f fs =>
      obtain ⟨c, w, hf, _⟩ := isName_cons (hp f List.mem_cons_self).1
      cases fs <;> simp [hf] at hempty
  have hsplit : ∀ {path : List String}, (∀ f ∈ path, isName f = true ∧ '.' ∉ f.toList) →
      path ≠ [] → (".".toList.intercalate (path.map String.toList)).splitOn '.' =
        path.map String.toList := by
    intro path hp hne
    refine List.splitOn_intercalate '.' (fun l hl => ?_) (by simpa using hne)
    obtain ⟨f, hf, rfl⟩ := List.mem_map.mp hl
    exact (hp f hf).2
  by_cases hpath : path = []
  · subst hpath
    exact (hnil hp' (h.symm.trans rfl)).symm
  by_cases hpath' : path' = []
  · subst hpath'
    exact hnil hp (h.trans rfl)
  · have hmap := (hsplit hp hpath).symm.trans ((congrArg _ h).trans (hsplit hp' hpath'))
    exact (List.map_inj_right fun _ _ => String.toList_injective).mp hmap

end Text

/-! ## Operands that are not binary -/

/-- What may follow an operand: an operator, a closing bracket or nothing. -/
def Text.Closes (v : List Char) : Prop := ∀ c ∈ v.head?, isNameChar c = false ∧ c ≠ '('

namespace TypeRef

/-- What follows the name of a type. -/
def lengthText (t : TypeRef) : List Char :=
  if t.isArray then '[' :: (Text.decimal t.len).toList ++ [']'] else []

theorem toList_text (t : TypeRef) : t.text.toList =
    (if t.isRef then "ref ".toList else []) ++ (t.name.toList ++ t.lengthText) := by
  unfold text lengthText
  dsimp only
  split <;> split <;> simp [String.toList_append]

theorem lengthText_cons (t : TypeRef) (v : List Char) : ∃ c x,
    t.lengthText ++ ')' :: v = c :: x ∧ (c = '[' ∨ c = ')') := by
  unfold lengthText
  split
  · exact ⟨'[', _, rfl, .inl rfl⟩
  · exact ⟨')', _, rfl, .inr rfl⟩

/-- The number of elements is read up to its bracket. -/
theorem lengthText_inj {t t' : TypeRef} (hlen : 0 ≤ t.len.toInt) (hlen' : 0 ≤ t'.len.toInt)
    {v v' : List Char} (h : t.lengthText ++ ')' :: v = t'.lengthText ++ ')' :: v') :
    t.len = t'.len ∧ v = v' := by
  have hzero : ∀ {t : TypeRef}, 0 ≤ t.len.toInt → ¬ t.isArray = true → t.len = 0 := by
    intro t hle harray
    rw [isArray, decide_eq_true_eq, Int64.lt_iff_toInt_lt, Int64.toInt_zero] at harray
    exact Int64.toInt_inj.mp (Int.le_antisymm (Int.not_lt.mp harray) hle)
  unfold lengthText at h
  split at h <;> split at h
  · have h : (Text.decimal t.len).toList ++ (']' :: ')' :: v) =
        (Text.decimal t'.len).toList ++ (']' :: ')' :: v') := by simpa using h
    obtain ⟨hdigits, _, hrest⟩ := Text.name_inj (fun c => Text.isNameChar_decimal hlen)
      (fun c => Text.isNameChar_decimal hlen') (by decide) (by decide) h
    exact ⟨Text.decimal_inj hdigits, (List.cons.inj hrest).2⟩
  · simp at h
  · simp at h
  · rename_i harray harray'
    rw [hzero hlen harray, hzero hlen' harray']
    exact ⟨rfl, (List.cons.inj h).2⟩

/-- A type is read up to the bracket that closes it. -/
theorem text_inj {t t' : TypeRef} (ht : Text.isName t.name = true)
    (ht' : Text.isName t'.name = true) (hlen : 0 ≤ t.len.toInt) (hlen' : 0 ≤ t'.len.toInt)
    {v v' : List Char} (h : t.text.toList ++ ')' :: v = t'.text.toList ++ ')' :: v') :
    t = t' ∧ v = v' := by
  -- a space follows `ref`, but no name of a type
  have href : ∀ {t : TypeRef}, Text.isName t.name = true → ∀ {v x : List Char},
      "ref ".toList ++ x ≠ t.name.toList ++ (t.lengthText ++ ')' :: v) := by
    intro t ht v x heq
    obtain ⟨c, y, hy, hc⟩ := t.lengthText_cons v
    have hword : "ref ".toList = ['r', 'e', 'f', ' '] := by decide +kernel
    rw [hy, hword] at heq
    obtain ⟨_, rfl, _⟩ := Text.name_inj (w := ['r', 'e', 'f']) (List.all_eq_true.mp (by decide))
      (Text.isNameChar_of_isName ht) (by decide) (by rcases hc with rfl | rfl <;> decide) heq
    exact absurd hc (by decide)
  have hbody : t.isRef = t'.isRef ∧ t.name.toList ++ (t.lengthText ++ ')' :: v) =
      t'.name.toList ++ (t'.lengthText ++ ')' :: v') := by
    rw [toList_text, toList_text] at h
    cases hr : t.isRef <;> cases hr' : t'.isRef <;>
      simp only [hr, hr', if_true, if_false, Bool.false_eq_true, List.nil_append,
        List.append_assoc] at h
    · exact ⟨rfl, h⟩
    · exact absurd h.symm (href ht)
    · exact absurd h (href ht')
    · exact ⟨rfl, List.append_cancel_left h⟩
  obtain ⟨c, x, hx, hc⟩ := t.lengthText_cons v
  obtain ⟨c', x', hx', hc'⟩ := t'.lengthText_cons v'
  rw [hx, hx'] at hbody
  obtain ⟨hname, rfl, rfl⟩ := Text.name_inj (Text.isNameChar_of_isName ht)
    (Text.isNameChar_of_isName ht') (by rcases hc with rfl | rfl <;> decide)
    (by rcases hc' with rfl | rfl <;> decide) hbody.2
  have hlength := hx.trans hx'.symm
  obtain ⟨hlen, hv⟩ := lengthText_inj hlen hlen' hlength
  obtain ⟨name, len, isRef⟩ := t
  obtain ⟨name', len', isRef'⟩ := t'
  obtain rfl : name = name' := String.toList_injective hname
  obtain rfl : len = len' := hlen
  obtain rfl : isRef = isRef' := hbody.1
  exact ⟨rfl, hv⟩

end TypeRef

/-- Is there an operator with the symbol? -/
def BinaryOp.isKnown : BinaryOp → Bool
  | unknown _ => false
  | _ => true

namespace Expr

/-- An expression without unary operators and missing parts, with names that are
    none of the things around them. -/
def isPlain : Expr → Bool
  | number _ => true
  | name s => Text.isName s && !(s.toList.head?.any Char.isDigit)
  | unary .. => false
  | binary op l r => op.isKnown && l.isPlain && r.isPlain
  | sizeof t => Text.isName t.name && decide (0 ≤ t.len.toInt)
  | offsetof t path =>
    Text.isName t && path.all fun f => Text.isName f && !f.toList.contains '.'
  | missing => false

/-- How an operand that is not binary begins. -/
def lead : Expr → List Char
  | number n => (Text.decimal n).toList
  | name s => s.toList
  | sizeof _ => ['s', 'i', 'z', 'e', 'o', 'f']
  | offsetof .. => ['o', 'f', 'f', 's', 'e', 't', 'o', 'f']
  | _ => []

/-- What it has in brackets. -/
def args : Expr → List Char
  | sizeof t => '(' :: (t.text.toList ++ [')'])
  | offsetof t path => '(' :: (t.toList ++ ',' :: ((".".intercalate path).toList ++ [')']))
  | _ => []

variable {e e' : Expr} {v v' : List Char}

theorem lead_cons (he : e.isPlain = true) (hb : e.isBinary = false) :
    e.text.toList = e.lead ++ e.args ∧ ∃ c w, e.lead = c :: w ∧
      (c = '-' ∨ Text.isNameChar c = true) ∧ ∀ x ∈ w, Text.isNameChar x = true := by
  have hclose : ")".toList = [')'] := by decide +kernel
  cases e with
  | number n =>
    obtain ⟨c, w, hlist, hw, hc⟩ := Text.decimal_cases n
    refine ⟨(List.append_nil _).symm, c, w, hlist, ?_,
      fun x hx => Text.isNameChar_of_isDigit (hw x hx)⟩
    exact (hc.imp_left Text.isNameChar_of_isDigit).symm.imp_left And.left
  | name s =>
    rw [isPlain, Bool.and_eq_true] at he
    obtain ⟨c, w, hlist, hc, hw⟩ := Text.isName_cons he.1
    exact ⟨(List.append_nil _).symm, c, w, hlist, .inr hc, hw⟩
  | sizeof t =>
    have hword : "sizeof(".toList = ['s', 'i', 'z', 'e', 'o', 'f', '('] := by decide +kernel
    refine ⟨?_, _, _, rfl, .inr (by decide), List.all_eq_true.mp (by decide)⟩
    simp only [text, lead, args, String.toList_append, hword, hclose,
      List.cons_append, List.nil_append]
  | offsetof t path =>
    have hword : "offsetof(".toList = ['o', 'f', 'f', 's', 'e', 't', 'o', 'f', '('] := by
      decide +kernel
    have hcomma : ",".toList = [','] := by decide +kernel
    refine ⟨?_, _, _, rfl, .inr (by decide), List.all_eq_true.mp (by decide)⟩
    simp only [text, lead, args, String.toList_append, hword, hclose, hcomma, List.append_assoc,
      List.cons_append, List.nil_append]
  | binary op l r => cases hb
  | unary op x => cases he
  | missing => cases he

/-- Brackets and what follows an operand. -/
theorem head_args (e : Expr) (hv : Text.Closes v) :
    ∀ c ∈ (e.args ++ v).head?, Text.isNameChar c = false := by
  cases e with
  | sizeof t => exact fun c hc => Option.mem_some_iff.mp hc ▸ by decide
  | offsetof t path => exact fun c hc => Option.mem_some_iff.mp hc ▸ by decide
  | _ => exact fun c hc => (hv c hc).1

/-- A name does not begin like a number. -/
theorem decimal_ne_name {s : String} (h : (name s).isPlain = true) (n : Int64) :
    (Text.decimal n).toList ≠ s.toList := by
  intro heq
  obtain ⟨c, w, hlist, -, hc⟩ := Text.decimal_cases n
  rw [heq] at hlist
  rw [isPlain, Bool.and_eq_true, hlist] at h
  rcases hc with hdigit | ⟨rfl, _⟩
  · simp [hdigit] at h
  · exact absurd (Text.isNameChar_of_isName h.1 '-' (hlist ▸ List.mem_cons_self)) (by decide)

/-- The type and the path of an offset are read up to the bracket after them. -/
theorem offsetof_inj {t t' : String} {path path' : List String}
    (he : (offsetof t path).isPlain = true) (he' : (offsetof t' path').isPlain = true)
    (h : (offsetof t path).args ++ v = (offsetof t' path').args ++ v') :
    offsetof t path = offsetof t' path' ∧ v = v' := by
  have hplain : ∀ {t : String} {path : List String}, (offsetof t path).isPlain = true →
      Text.isName t = true ∧ ∀ f ∈ path, Text.isName f = true ∧ '.' ∉ f.toList := by
    intro t path h
    simpa [isPlain] using h
  obtain ⟨ht, hpath⟩ := hplain he
  obtain ⟨ht', hpath'⟩ := hplain he'
  have htext : t.toList ++ ',' :: ((".".intercalate path).toList ++ ')' :: v) =
      t'.toList ++ ',' :: ((".".intercalate path').toList ++ ')' :: v') := by
    simpa [args] using h
  obtain ⟨hname, _, hrest⟩ := Text.name_inj (Text.isNameChar_of_isName ht)
    (Text.isNameChar_of_isName ht') (by decide) (by decide) htext
  obtain ⟨hfields, _, hend⟩ := Text.name_inj (Text.isNameChar_path fun f hf => (hpath f hf).1)
    (Text.isNameChar_path fun f hf => (hpath' f hf).1) (by decide) (by decide) hrest
  rw [String.toList_injective hname, Text.path_inj hpath hpath' hfields]
  exact ⟨rfl, hend⟩

/-- An operand that is not binary is read up to what follows it. -/
theorem atom_inj (he : e.isPlain = true) (hb : e.isBinary = false) (he' : e'.isPlain = true)
    (hb' : e'.isBinary = false) (hv : Text.Closes v) (hv' : Text.Closes v')
    (h : e.text.toList ++ v = e'.text.toList ++ v') : e = e' ∧ v = v' := by
  obtain ⟨htext, c, w, hlead, hc, hw⟩ := lead_cons he hb
  obtain ⟨htext', c', w', hlead', hc', hw'⟩ := lead_cons he' hb'
  rw [htext, htext', List.append_assoc, List.append_assoc, hlead, hlead'] at h
  obtain ⟨rfl, hrest⟩ := List.cons.inj h
  obtain ⟨rfl, hargs⟩ := Text.run_inj hw hw' (e.head_args hv) (e'.head_args hv') hrest
  have hsame : e.lead = e'.lead := hlead.trans hlead'.symm
  have hopen : ∀ {v x : List Char}, Text.Closes v → v ≠ '(' :: x :=
    fun hv heq => (hv '(' (heq ▸ rfl)).2 rfl
  cases e with
  | unary | missing => cases he
  | binary => cases hb
  | number n =>
    cases e' with
    | unary | missing => cases he'
    | binary => cases hb'
    | number n' => exact ⟨congrArg number (Text.decimal_inj hsame), hargs⟩
    | name s' => exact absurd hsame (decimal_ne_name he' n)
    | sizeof | offsetof => exact absurd hargs (hopen hv)
  | name s =>
    cases e' with
    | unary | missing => cases he'
    | binary => cases hb'
    | number n' => exact absurd hsame.symm (decimal_ne_name he n')
    | name s' => exact ⟨congrArg name (String.toList_injective hsame), hargs⟩
    | sizeof | offsetof => exact absurd hargs (hopen hv)
  | sizeof t =>
    cases e' with
    | unary | missing => cases he'
    | binary => cases hb'
    | number | name => exact absurd hargs.symm (hopen hv')
    | offsetof => exact absurd (List.cons.inj hsame).1 (by decide)
    | sizeof t' =>
      simp only [isPlain, Bool.and_eq_true, decide_eq_true_eq] at he he'
      simp only [args, List.append_assoc, List.cons_append, List.nil_append, List.cons.injEq,
        true_and] at hargs
      obtain ⟨rfl, rfl⟩ := TypeRef.text_inj he.1 he'.1 he.2 he'.2 hargs
      exact ⟨rfl, rfl⟩
  | offsetof t path =>
    cases e' with
    | unary | missing => cases he'
    | binary => cases hb'
    | number | name => exact absurd hargs.symm (hopen hv')
    | sizeof => exact absurd (List.cons.inj hsame).1 (by decide)
    | offsetof t' path' => exact offsetof_inj he he' hargs

end Expr

/-! ## Chains -/

/-- Reads the symbol of an operator. -/
def BinaryOp.read? : List Char → Option (BinaryOp × List Char)
  | '+' :: x => some (.add, x)
  | '-' :: x => some (.sub, x)
  | '*' :: x => some (.mul, x)
  | '/' :: x => some (.div, x)
  | '%' :: x => some (.mod, x)
  | '&' :: x => some (.and, x)
  | '|' :: x => some (.or, x)
  | '^' :: x => some (.xor, x)
  | '<' :: '<' :: x => some (.shl, x)
  | '>' :: '>' :: x => some (.shr, x)
  | _ => none

/-- Symbols are read back, and begin with a mark that is no bracket. -/
theorem BinaryOp.symbol_cons {op : BinaryOp} (h : op.isKnown = true) :
    ∃ c w, op.symbol.toList = c :: w ∧ (∀ x, read? (c :: w ++ x) = some (op, x)) ∧
      Text.isNameChar c = false ∧ c ≠ '(' ∧ c ≠ ')' := by
  cases op with
  | unknown s => cases h
  | add => exact ⟨'+', [], by decide +kernel, fun _ => rfl, by decide⟩
  | sub => exact ⟨'-', [], by decide +kernel, fun _ => rfl, by decide⟩
  | mul => exact ⟨'*', [], by decide +kernel, fun _ => rfl, by decide⟩
  | div => exact ⟨'/', [], by decide +kernel, fun _ => rfl, by decide⟩
  | mod => exact ⟨'%', [], by decide +kernel, fun _ => rfl, by decide⟩
  | and => exact ⟨'&', [], by decide +kernel, fun _ => rfl, by decide⟩
  | or => exact ⟨'|', [], by decide +kernel, fun _ => rfl, by decide⟩
  | xor => exact ⟨'^', [], by decide +kernel, fun _ => rfl, by decide⟩
  | shl => exact ⟨'<', ['<'], by decide +kernel, fun _ => rfl, by decide⟩
  | shr => exact ⟨'>', ['>'], by decide +kernel, fun _ => rfl, by decide⟩

/-- No symbol begins another one. -/
theorem BinaryOp.symbol_inj {op op' : BinaryOp} (h : op.isKnown = true) (h' : op'.isKnown = true)
    {x x' : List Char} (heq : op.symbol.toList ++ x = op'.symbol.toList ++ x') :
    op = op' ∧ x = x' := by
  obtain ⟨c, w, hlist, hread, _⟩ := symbol_cons h
  obtain ⟨c', w', hlist', hread', _⟩ := symbol_cons h'
  rw [hlist, hlist'] at heq
  have hsame := (hread x).symm.trans ((congrArg read? heq).trans (hread' x'))
  exact Prod.mk.inj (Option.some.inj hsame)

namespace Expr

/-- The operand that an expression begins with. -/
def first : Expr → Expr
  | binary _ l _ => l.first
  | e => e

/-- The operators that follow, each with its right operand. -/
def steps : Expr → List (BinaryOp × Expr)
  | binary op l r => l.steps ++ [(op, r)]
  | _ => []

/-- The text of an operator with its right operand. -/
def stepText (x : BinaryOp × Expr) : List Char := x.1.symbol.toList ++ x.2.operandText.toList

/-- Every expression is the chain of its operands. -/
theorem foldl_steps (e : Expr) : e.steps.foldl (fun l x => .binary x.1 l x.2) e.first = e := by
  induction e with
  | binary op l r ih _ => rw [steps, List.foldl_append, first, ih]; rfl
  | _ => rfl

theorem toList_text (e : Expr) :
    e.text.toList = e.first.text.toList ++ e.steps.flatMap stepText := by
  induction e with
  | binary op l r ih _ =>
    have htext : (binary op l r).text = l.text ++ (op.symbol ++ r.operandText) := by
      rw [text, operandText, String.append_assoc]
    rw [htext, String.toList_append, ih, steps, List.flatMap_append, first]
    simp [stepText]
  | _ => simp [first, steps]

variable {e e' : Expr} {v v' : List Char}

theorem plain_steps (he : e.isPlain = true) : (e.first.isPlain = true ∧ e.first.isBinary = false) ∧
    ∀ x ∈ e.steps, x.1.isKnown = true ∧ x.2.isPlain = true ∧ sizeOf x.2 < sizeOf e := by
  induction e with
  | binary op l r ihl _ =>
    simp only [isPlain, Bool.and_eq_true] at he
    obtain ⟨hfirst, hsteps⟩ := ihl he.1.2
    refine ⟨hfirst, fun x hx => ?_⟩
    have hsize : sizeOf (binary op l r) = 1 + sizeOf op + sizeOf l + sizeOf r := rfl
    rcases List.mem_append.mp hx with hx | hx
    · obtain ⟨hop, hx, hlt⟩ := hsteps x hx
      exact ⟨hop, hx, by omega⟩
    · obtain rfl := List.mem_singleton.mp hx
      exact ⟨he.1.1, he.2, by dsimp only; omega⟩
  | _ => exact ⟨⟨he, rfl⟩, nofun⟩

/-- The text of an expression in brackets, or of a whole one, determines it. -/
def Readable (e : Expr) : Prop :=
  ∀ {e' : Expr} {u u' : List Char}, e'.isPlain = true → (∀ c ∈ u.head?, c = ')') →
    (∀ c ∈ u'.head?, c = ')') → e.text.toList ++ u = e'.text.toList ++ u' → e = e' ∧ u = u'

/-- What follows the operands of a chain does not continue them. -/
theorem closes_steps {l : List (BinaryOp × Expr)} (hl : ∀ x ∈ l, x.1.isKnown = true)
    (hv : ∀ c ∈ v.head?, c = ')') : Text.Closes (l.flatMap stepText ++ v) := by
  intro c hc
  cases l with
  | nil =>
    rw [hv c hc]
    decide
  | cons x l =>
    obtain ⟨d, w, hsymbol, _, hd⟩ := BinaryOp.symbol_cons (hl x List.mem_cons_self)
    rw [List.flatMap_cons, stepText, hsymbol] at hc
    rw [← Option.some.inj hc]
    exact ⟨hd.1, hd.2.1⟩

theorem operandText_of_binary (h : e.isBinary = true) :
    e.operandText.toList = '(' :: (e.text.toList ++ [')']) := by
  have hopen : "(".toList = ['('] := by decide +kernel
  have hclose : ")".toList = [')'] := by decide +kernel
  simp [operandText, h, hopen, hclose]

theorem operandText_of_not_binary (h : e.isBinary = false) : e.operandText = e.text := by
  simp [operandText, h]

/-- A right operand is read up to what follows it. -/
theorem operandText_inj (he : e.isPlain = true) (hread : e.Readable) (he' : e'.isPlain = true)
    (hv : Text.Closes v) (hv' : Text.Closes v')
    (h : e.operandText.toList ++ v = e'.operandText.toList ++ v') : e = e' ∧ v = v' := by
  -- only a bracket opens with a bracket
  have hopen : ∀ {e : Expr} {v x : List Char}, e.isPlain = true → e.isBinary = false →
      '(' :: x ≠ e.operandText.toList ++ v := by
    intro e v x he hb heq
    obtain ⟨htext, c, w, hlead, hc, _⟩ := lead_cons he hb
    rw [operandText_of_not_binary hb, htext, hlead] at heq
    obtain ⟨rfl, _⟩ := List.cons.inj heq
    exact absurd hc (by decide)
  cases hb : e.isBinary <;> cases hb' : e'.isBinary
  · rw [operandText_of_not_binary hb, operandText_of_not_binary hb'] at h
    exact atom_inj he hb he' hb' hv hv' h
  · rw [operandText_of_binary hb'] at h
    exact absurd h.symm (hopen he hb)
  · rw [operandText_of_binary hb] at h
    exact absurd h (hopen he' hb')
  · rw [operandText_of_binary hb, operandText_of_binary hb'] at h
    have htext : e.text.toList ++ ')' :: v = e'.text.toList ++ ')' :: v' := by simpa using h
    obtain ⟨rfl, hrest⟩ := hread he' (by simp) (by simp) htext
    exact ⟨rfl, (List.cons.inj hrest).2⟩

/-- A chain is cut up into its operators and operands in one way. -/
theorem steps_inj {l l' : List (BinaryOp × Expr)}
    (hl : ∀ x ∈ l, x.1.isKnown = true ∧ x.2.isPlain = true ∧ x.2.Readable)
    (hl' : ∀ x ∈ l', x.1.isKnown = true ∧ x.2.isPlain = true) (hv : ∀ c ∈ v.head?, c = ')')
    (hv' : ∀ c ∈ v'.head?, c = ')')
    (h : l.flatMap stepText ++ v = l'.flatMap stepText ++ v') : l = l' ∧ v = v' := by
  -- what closes a chain does not continue it
  have hstop : ∀ {x : BinaryOp × Expr} {v y : List Char}, x.1.isKnown = true →
      (∀ c ∈ v.head?, c = ')') → v ≠ stepText x ++ y := by
    intro x v y hx hv heq
    obtain ⟨c, w, hsymbol, _, hc⟩ := BinaryOp.symbol_cons hx
    rw [stepText, hsymbol] at heq
    exact hc.2.2 (hv c (heq ▸ rfl))
  induction l generalizing l' with
  | nil =>
    cases l' with
    | nil => exact ⟨rfl, h⟩
    | cons x' l' =>
      rw [List.flatMap_cons, List.append_assoc] at h
      exact absurd h (hstop (hl' x' List.mem_cons_self).1 hv)
  | cons x l ih =>
    cases l' with
    | nil =>
      rw [List.flatMap_cons, List.append_assoc] at h
      exact absurd h.symm (hstop (hl x List.mem_cons_self).1 hv')
    | cons x' l' =>
      obtain ⟨⟨hop, hx, hread⟩, hrest⟩ := List.forall_mem_cons.mp hl
      obtain ⟨⟨hop', hx'⟩, hrest'⟩ := List.forall_mem_cons.mp hl'
      rw [List.flatMap_cons, List.flatMap_cons, List.append_assoc, List.append_assoc, stepText,
        stepText, List.append_assoc, List.append_assoc] at h
      obtain ⟨hsame, htext⟩ := BinaryOp.symbol_inj hop hop' h
      obtain ⟨hoperand, hmore⟩ := operandText_inj hx hread hx'
        (closes_steps (fun y hy => (hrest y hy).1) hv)
        (closes_steps (fun y hy => (hrest' y hy).1) hv') htext
      obtain ⟨rfl, rfl⟩ := ih hrest hrest' hmore
      exact ⟨congrArg (· :: l) (Prod.ext hsame hoperand), rfl⟩

/-- Every expression of the kind can be read back.  The induction is on its size,
    since what stands in brackets is cut up in turn. -/
theorem readable (he : e.isPlain = true) : e.Readable := by
  induction hn : sizeOf e using Nat.strongRecOn generalizing e with
  | ind n ih =>
    intro e' u u' he' hu hu' h
    obtain ⟨⟨hfirst, hatom⟩, hsteps⟩ := plain_steps he
    obtain ⟨⟨hfirst', hatom'⟩, hsteps'⟩ := plain_steps he'
    rw [toList_text, toList_text e', List.append_assoc, List.append_assoc] at h
    obtain ⟨hhead, hchain⟩ := atom_inj hfirst hatom hfirst' hatom'
      (closes_steps (fun x hx => (hsteps x hx).1) hu)
      (closes_steps (fun x hx => (hsteps' x hx).1) hu') h
    obtain ⟨hsame, rfl⟩ := steps_inj
      (fun x hx => ⟨(hsteps x hx).1, (hsteps x hx).2.1,
        ih _ (hn ▸ (hsteps x hx).2.2) (hsteps x hx).2.1 rfl⟩)
      (fun x hx => ⟨(hsteps' x hx).1, (hsteps' x hx).2.1⟩) hu hu' hchain
    rw [← foldl_steps e, ← foldl_steps e', hhead, hsame]
    exact ⟨rfl, rfl⟩

/-- Expressions without unary operators and missing parts, with names that are
    identifiers, have the same text only if they are the same. -/
theorem text_eq_iff (e e' : Expr) (he : e.isPlain = true) (he' : e'.isPlain = true) :
    e.text = e'.text ↔ e = e' := by
  refine ⟨fun h => ?_, congrArg text⟩
  have hlist : e.text.toList ++ [] = e'.text.toList ++ [] := by rw [h]
  exact (readable he he' (by simp) (by simp) hlist).1

/-- `a--1-b` is not `a-(-1-b)`. -/
theorem text_eq_iff_minus :
    (binary .sub (binary .sub (name "a") (number (-1))) (name "b")).text ≠
      (binary .sub (name "a") (binary .sub (number (-1)) (name "b"))).text :=
  fun h => absurd ((text_eq_iff _ _ (by decide +kernel) (by decide +kernel)).mp h) (by decide)

end Expr

end Z80Backend
