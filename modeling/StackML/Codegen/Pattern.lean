import StackML.Codegen.Name

/-!
Code for matching. A pattern becomes a row of tests, each of which may leave for the next case;
where that is becomes known once the body of the case is compiled.
-/

namespace StackML.Codegen

inductive Test where
  | code (code : Fragment)
  | orElse (leave : Nat → Instr)

/-- The code of a row of tests in front of a case of `after` bytes, and the size of both. -/
def resolveTests (after : Nat) : List Test → Fragment × Nat
  | [] => ([], after)
  | .code code :: rest =>
    let (done, size) := resolveTests after rest
    (code ++ done, code.size + size)
  | .orElse leave :: rest =>
    let (done, size) := resolveTests after rest
    let i := leave size
    (i :: done, i.size + size)

/-- Comparison of two texts by the host, with a number below, at or above zero as its result. -/
def stringCompare : Constant :=
  { kind := .host, int := Host.MemberKind.func.code, owner := "strings", name := "Compare"
    descriptor := "(Lstring;Lstring;)I" }

/-- The test of a part of a value, which is taken out of `source` and has a local of its own. A
wildcard needs none. -/
def testPart (ctx : Context) (source : Local) (op : Opcode) (p : Pattern Typing.Typed)
    (test : Local → Gen (List Test)) : Gen (List Test) := do
  if p.isWild then return []
  let r ← repOf ctx p.note
  let whole ← load source
  let part ← emit op
  let part := whole ++ part ++ (← coerce .ref r)
  let l ← define "" r
  let keep ← store l
  pure (.code (part ++ keep) :: (← test l))

/-- The tests of a pattern against the value in a local; its names become other names of the locals
that hold the parts. -/
def testPattern (ctx : Context) (source : Local) : Pattern Typing.Typed → Gen (List Test)
  | .wild _ => pure []
  | .var _ name => do
    modify fun s => { s with locals := s.locals.addAlias name source }
    pure []
  | .int _ v => do
    let l ← load source
    let k ← emitConst ctx .iconst { kind := .int, int := v }
    pure [.code (l ++ k), .orElse (← jump .ifIcmpNe)]
  | .bool _ v => do
    let l ← load source
    let k ← emitWith .zconst (.byte (if v then 1 else 0))
    pure [.code (l ++ k), .orElse (← jump .ifIcmpNe)]
  | .str _ v => do
    let l ← load source
    let k ← emitConst ctx .sconst { kind := .string, str := v }
    let c ← emitConst ctx .invokehost stringCompare
    pure [.code (l ++ k ++ c), .orElse (← jump .ifNe)]
  | .nil _ => do
    let l ← load source
    let e ← emit .listIsEmpty
    pure [.code (l ++ e), .orElse (← jump .ifEq)]
  | .cons _ head tail => do
    let l ← load source
    let e ← emit .listIsEmpty
    let leave ← jump .ifNe
    let heads ← testPart ctx source .listHead head fun l => testPattern ctx l head
    let tails ← testPart ctx source .listTail tail fun l => testPattern ctx l tail
    pure (.code (l ++ e) :: .orElse leave :: heads ++ tails)
  | .tag _ name => do
    let holder ← holderRef ctx name
    let l ← load source
    let i ← emitConst ctx .instanceof holder
    pure [.code (l ++ i), .orElse (← jump .ifEq)]
  | .build _ name arg => do
    let holder ← holderRef ctx name
    let l ← load source
    let i ← emitConst ctx .instanceof holder
    let leave ← jump .ifEq
    let args ← testPart ctx source .getpayload arg fun l => testPattern ctx l arg
    pure (.code (l ++ i) :: .orElse leave :: args)

structure Case where
  code : Fragment
  done : Nat → Instr

/-- A case from its tests, its body and the jump behind the body. -/
def Case.of (tests : List Test) (body : Fragment) (done : Nat → Instr) : Case :=
  let (front, _) := resolveTests (body.size + (done 0).size) tests
  { code := front ++ body, done }

/-- The cases one after the other, and what follows when none applies. -/
def joinCases (otherwise : Fragment) (cases : List Case) : Fragment :=
  (cases.foldr (fun c (rest, size) =>
    let goto := c.done size
    (c.code ++ goto :: rest, c.code.size + goto.size + size)) (otherwise, otherwise.size)).1

end StackML.Codegen
