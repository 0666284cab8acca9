import Z80Backend.Address.Build

/-! # Access to typed storage

    A load moves the value at an address into a register and a store moves a
    register into the address; a pair moves a word and a single register a
    byte.  Every other register keeps its value: what the address code needs
    is saved on the stack around it. -/

namespace Z80Backend.Address

/-! ## Bytes -/

/-- Loads a byte through an address in `hl`. -/
def loadByteVia (steps : List Step) : Reg8 → List Step
  | .h => [.push .de, .push .hl] ++ steps ++
      [.loadByte .e .hl, .pop .hl, .ldReg .h .e, .pop .de]
  | .l => [.push .de, .push .hl] ++ steps ++
      [.loadByte .e .hl, .pop .hl, .ldReg .l .e, .pop .de]
  | .d => [.push .hl, .push .de] ++ steps ++
      [.loadByte .l .hl, .pop .de, .ldReg .d .l, .pop .hl]
  | .e => [.push .hl, .push .de] ++ steps ++
      [.loadByte .l .hl, .pop .de, .ldReg .e .l, .pop .hl]
  | r => [.push .de, .push .hl] ++ steps ++ [.loadByte r .hl, .pop .hl, .pop .de]

/-- Loads a byte. -/
def loadByte (r : Reg8) (a : Address) : List Step :=
  match a with
  | .frame _ => [.loadByte r (a.mem 0)]
  | .absolute .. =>
    if r = .a then [.loadByte .a (a.mem 0)]
    else [.push .af, .loadByte .a (a.mem 0), .ldReg r .a, .pop .af]
  | .computed [] => [.loadByte r .hl]
  | .computed steps => loadByteVia steps r

/-- Stores a byte through an address in `hl`. -/
def storeByteVia (steps : List Step) : Reg8 → List Step
  | .h => [.push .de, .push .hl] ++ steps ++
      [.pop .de, .storeByte .hl .d, .exDEHL, .pop .de]
  | .l => [.push .de, .push .hl] ++ steps ++
      [.pop .de, .storeByte .hl .e, .exDEHL, .pop .de]
  | .d => [.push .hl, .push .de] ++ steps ++ [.pop .de, .storeByte .hl .d, .pop .hl]
  | .e => [.push .hl, .push .de] ++ steps ++ [.pop .de, .storeByte .hl .e, .pop .hl]
  | r => [.push .de, .push .hl] ++ steps ++ [.storeByte .hl r, .pop .hl, .pop .de]

/-- Stores a byte. -/
def storeByte (a : Address) (r : Reg8) : List Step :=
  match a with
  | .frame _ => [.storeByte (a.mem 0) r]
  | .absolute .. =>
    if r = .a then [.storeByte (a.mem 0) .a]
    else [.push .af, .ldReg .a r, .storeByte (a.mem 0) .a, .pop .af]
  | .computed steps =>
    if steps.isEmpty && r ≠ .h && r ≠ .l then [.storeByte .hl r] else storeByteVia steps r

/-! ## Words -/

/-- Fetches the word at `hl` into `de`. -/
def fetchWord : List Step := [.loadByte .e .hl, .inc .hl, .loadByte .d .hl]

/-- Loads a word through an address in `hl`. -/
def loadWordVia (steps : List Step) : WordReg → List Step
  | .hl => [.push .de] ++ steps ++ fetchWord ++ [.exDEHL, .pop .de]
  | .de => [.push .hl] ++ steps ++ fetchWord ++ [.pop .hl]
  | .bc => [.push .de, .push .hl] ++ steps ++ fetchWord ++
      [.ldReg .c .e, .ldReg .b .d, .pop .hl, .pop .de]

/-- Loads a word. -/
def loadWord (r : WordReg) (a : Address) : List Step :=
  match a with
  | .frame d =>
    if fitsDisp (d + 1) then [.loadByte r.low (a.mem 0), .loadByte r.high (a.mem 1)]
    else loadWordVia a.toHL r
  | .absolute .. => [.loadWord r (a.mem 0)]
  | .computed steps => loadWordVia steps r

/-- Stores a word through an address in `hl`. -/
def storeWordVia (steps : List Step) : WordReg → List Step
  | .hl => [.push .de, .push .hl] ++ steps ++
      [.pop .de, .storeByte .hl .e, .inc .hl, .storeByte .hl .d, .exDEHL, .pop .de]
  | .de => [.push .hl, .push .de] ++ steps ++
      [.pop .de, .storeByte .hl .e, .inc .hl, .storeByte .hl .d, .pop .hl]
  | .bc => [.push .de, .push .hl] ++ steps ++
      [.storeByte .hl .c, .inc .hl, .storeByte .hl .b, .pop .hl, .pop .de]

/-- Stores a word. -/
def storeWord (a : Address) (r : WordReg) : List Step :=
  match a with
  | .frame d =>
    if fitsDisp (d + 1) then [.storeByte (a.mem 0) r.low, .storeByte (a.mem 1) r.high]
    else storeWordVia a.toHL r
  | .absolute .. => [.storeWord (a.mem 0) r]
  | .computed steps => storeWordVia steps r

/-! ## Registers by name -/

/-- Moves the value at an address into the named register. -/
def load (reg : String) (a : Address) : Except AddressError (List Step) :=
  match Reg8.ofName? reg, WordReg.ofName? reg with
  | some r, _ => .ok (loadByte r a)
  | none, some r => .ok (loadWord r a)
  | none, none => .error (.loadReg reg)

/-- Moves the named register to an address. -/
def store (a : Address) (reg : String) : Except AddressError (List Step) :=
  match Reg8.ofName? reg, WordReg.ofName? reg with
  | some r, _ => .ok (storeByte a r)
  | none, some r => .ok (storeWord a r)
  | none, none => .error (.storeReg reg)

end Z80Backend.Address
