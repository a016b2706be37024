import StackML.Proofs.Codegen.Locals

/-!
Tests of patterns at work. The code of a row of tests gets to its end when the pattern fits, with the
names that it binds in locals, and past the case otherwise.
-/

namespace StackML.Codegen

open Machine Semantics
open Typing (Typed PatternFits)

variable {site : Site} {ip after next : Nat} {L S : List Word} {out : List Text} {v : Value}
variable {module : String} {ctx : Context} {table : List (String × HolderClass)}
variable {s s' : State} {code : Fragment} {tests : List Test} {t : LocalTable}
variable {env : NameMap Value} {result : Option (NameMap Value)}

/-! ### Rows of tests -/

def testCode (after : Nat) (tests : List Test) : Fragment := (resolveTests after tests).1

theorem resolveTests_snd (after : Nat) (tests : List Test) :
    (resolveTests after tests).2 = (testCode after tests).size + after := by
  unfold testCode
  induction tests with
  | nil => simp [resolveTests]
  | cons test tests ih =>
    cases test with
    | code code =>
      simp only [resolveTests, Fragment.size_append, ih]
      omega
    | orElse leave =>
      simp only [resolveTests, size_cons, ih]
      omega

@[simp] theorem testCode_nil (after : Nat) : testCode after [] = [] := rfl

@[simp] theorem testCode_code (after : Nat) (code : Fragment) (tests : List Test) :
    testCode after (.code code :: tests) = code ++ testCode after tests := rfl

@[simp] theorem testCode_orElse (after : Nat) (leave : Nat → Instr) (tests : List Test) :
    testCode after (.orElse leave :: tests) =
      leave ((testCode after tests).size + after) :: testCode after tests := by
  rw [← resolveTests_snd]
  rfl

theorem testCode_append (after : Nat) (a b : List Test) :
    testCode after (a ++ b) = testCode ((testCode after b).size + after) a ++ testCode after b := by
  induction a with
  | nil => rfl
  | cons test a ih =>
    cases test with
    | code code => simp [ih]
    | orElse leave => simp [ih, Fragment.size_append, Nat.add_assoc]

/-! ### What tests decide -/

/-- The code gets to its end with the locals of the names that were bound, or passes over the case
behind it. -/
def Decides (site : Site) (ip : Nat) (code : Fragment) (after : Nat) (L S : List Word)
    (out : List Text) (next : Nat) (t : LocalTable) : Option (NameMap Value) → Prop
  | some env => ∃ L', Keeps next L L' ∧ Shelters t L' env ∧
      Leads site ⟨ip, L, S, out⟩ ⟨ip + code.size, L', S, out⟩
  | none => ∃ L', Keeps next L L' ∧
      Leads site ⟨ip, L, S, out⟩ ⟨ip + code.size + after, L', S, out⟩

theorem Decides.test {leaves : Bool} {i : Instr} {rest : Fragment}
    (way : Leads site ⟨ip, L, S, out⟩
      ⟨ip + code.size + 3 + (if leaves then rest.size + after else 0), L, S, out⟩)
    (width : i.size = 3) (fails : leaves = true → result = none)
    (passes : leaves = false → Decides site (ip + code.size + 3) rest after L S out next t result) :
    Decides site ip (code ++ i :: rest) after L S out next t result := by
  have size : Fragment.size (code ++ i :: rest) = code.size + 3 + rest.size := by
    rw [Fragment.size_append, size_cons, width]
    omega
  cases leaves with
  | false =>
    have rest := passes rfl
    cases result with
    | some env =>
      obtain ⟨L', keeps, shelters, leads⟩ := rest
      refine ⟨L', keeps, shelters, way.trans ?_⟩
      rw [size, ← Nat.add_assoc, ← Nat.add_assoc]
      exact leads
    | none =>
      obtain ⟨L', keeps, leads⟩ := rest
      refine ⟨L', keeps, way.trans ?_⟩
      rw [size, ← Nat.add_assoc, ← Nat.add_assoc]
      exact leads
  | true =>
    rw [fails rfl]
    refine ⟨L, .refl next L, ?_⟩
    rw [size, ← Nat.add_assoc, ← Nat.add_assoc, Nat.add_assoc _ rest.size]
    exact way

theorem Decides.mono {next' : Nat}
    (h : Decides site ip code after L S out next' t result) (le : next ≤ next') :
    Decides site ip code after L S out next t result := by
  cases result with
  | some env =>
    obtain ⟨L', keeps, rest⟩ := h
    exact ⟨L', keeps.mono le, rest⟩
  | none =>
    obtain ⟨L', keeps, rest⟩ := h
    exact ⟨L', keeps.mono le, rest⟩

theorem Decides.leads {front : Fragment} {L' : List Word}
    (way : Leads site ⟨ip, L, S, out⟩ ⟨ip + front.size, L', S, out⟩) (keeps : Keeps next L L')
    (h : Decides site (ip + front.size) code after L' S out next t result) :
    Decides site ip (front ++ code) after L S out next t result := by
  cases result with
  | some env =>
    obtain ⟨L'', keeps', shelters, leads⟩ := h
    refine ⟨L'', keeps.trans keeps', shelters, way.trans ?_⟩
    rw [Fragment.size_append, ← Nat.add_assoc]
    exact leads
  | none =>
    obtain ⟨L'', keeps', leads⟩ := h
    refine ⟨L'', keeps.trans keeps', way.trans ?_⟩
    rw [Fragment.size_append, ← Nat.add_assoc]
    exact leads

theorem Decides.both {a b : Fragment} {t' : LocalTable} {f : NameMap Value → Option (NameMap Value)}
    (first : Decides site ip a (b.size + after) L S out next t' result)
    (second : ∀ env L', result = some env → Keeps next L L' → Shelters t' L' env →
      Decides site (ip + a.size) b after L' S out next t (f env)) :
    Decides site ip (a ++ b) after L S out next t (result.bind f) := by
  cases result with
  | some env =>
    obtain ⟨L', keeps, shelters, leads⟩ := first
    exact .leads leads keeps (second env L' rfl keeps shelters)
  | none =>
    obtain ⟨L', keeps, leads⟩ := first
    refine ⟨L', keeps, ?_⟩
    rw [Fragment.size_append, ← Nat.add_assoc, Nat.add_assoc _ b.size]
    exact leads

theorem Decides.last {leaves : Bool} {i : Instr}
    (way : Leads site ⟨ip, L, S, out⟩
      ⟨ip + code.size + 3 + (if leaves then after else 0), L, S, out⟩)
    (width : i.size = 3) (shelters : Shelters t L env)
    (bound : result = if leaves then none else some env) :
    Decides site ip (code ++ [i]) after L S out next t result := by
  refine .test (by simpa using way) width (fun fails => by simp [bound, fails]) fun passes => ?_
  rw [bound, passes]
  exact ⟨L, .refl next L, shelters, .refl _⟩

/-! ### Constructors -/

structure Hosts (ctx : Context) (table : List (String × HolderClass)) (site : Site) : Prop where
  linked : ComparesTexts site.setup.registry
  heap : site.world.heap = {}
  named : ∀ {name cls}, table.lookup name = some cls → cls.name = name
  classes : ∀ {name k s s' cls}, holderRef ctx name s = .ok k s' →
    table.lookup name = some cls → site.Class k cls ∧ cls.owner = k.owner ∧ cls.name = k.name

theorem Hosts.instanceof_iff (hosts : Hosts ctx table site) {name : String} {k : Constant}
    {cls : HolderClass} {payload : Value} {type : Ty} (run : holderRef ctx name s = .ok k s')
    (listed : ∃ cls, table.lookup name = some cls)
    (typed : HasType table ctx.checked.ctors (.holder cls payload) type) :
    (cls.owner = k.owner ∧ cls.name = k.name) ↔ table.lookup name = some cls := by
  obtain ⟨other, found⟩ : ∃ other, table.lookup other = some cls := by
    cases typed with
    | tag _ _ found => exact ⟨_, found⟩
    | build _ _ found => exact ⟨_, found⟩
  constructor
  · rintro ⟨-, same⟩
    obtain ⟨cls', found'⟩ := listed
    have equal : Text.ofString other = Text.ofString name := by
      rw [← hosts.named found, ← hosts.named found', same, (hosts.classes run found').2.2]
    rwa [← Text.ofString_injective equal]
  · exact fun found => (hosts.classes run found).2

/-! ### Parts of a value -/

theorem testPart_decides (setting : Setting module ctx) (known : Describes table ctx.checked.ctors)
    {source : Local} {op : Opcode} {p : Pattern Typed} {part : Value}
    (extract : ∀ {ip line S}, site.Located ip [⟨op, .none, line⟩] →
      Leads site ⟨ip, L, words source.repr v ++ S, out⟩ ⟨ip + 1, L, .ofValue part :: S, out⟩)
    (typed : HasType table ctx.checked.ctors part p.note.type)
    (pool : s.pool.Plain module) (held : Held s.locals.next L source v)
    (shelters : Shelters s.locals L env)
    (run : testPart ctx source op p (fun l => testPattern ctx l p) s = .ok tests s')
    (placed : Placed site ip (testCode after tests) s' L)
    (each : ∀ {l s tests ip L}, testPattern ctx l p s = .ok tests s' → s.pool.Plain module →
      l.repr = p.note.type.rep → Held s.locals.next L l part → Shelters s.locals L env →
      Placed site ip (testCode after tests) s' L →
      Decides site ip (testCode after tests) after L S out s.locals.next s'.locals
        (bindPattern table p part env)) :
    Decides site ip (testCode after tests) after L S out s.locals.next s'.locals
      (bindPattern table p part env) := by
  rcases testPart_ok run with ⟨wild, rfl, rfl⟩ | ⟨r, co, rest, rep, runC, runT, rfl⟩
  · cases p with
    | wild n => exact ⟨L, .refl _ L, shelters, .refl _⟩
    | _ => cases wild
  · rw [setting.typeOf_eq] at rep
    obtain rfl := Rep.eq_rep_of_ofTy rep
    have fits := HasType.fits known typed
    have visible : p.note.type.rep ≠ .void := p.note.type.rep_ne_void
    let l : Local := ⟨"", s.locals.next, p.note.type.rep, none⟩
    have plain : l.self = none := rfl
    have grows := (testPattern_binds setting plain runT).max
    have room : s.locals.next + p.note.type.rep.width ≤ L.length :=
      Nat.le_trans (Nat.le_trans (Nat.le_max_right _ _) grows) placed.room
    rw [testCode_code] at placed ⊢
    have at_ := placed.located.left
    have atStore := at_.right
    have atCoerce := at_.left.right
    have atPart := at_.left.left.right
    obtain ⟨L', keeps, stored, keep⟩ := store_leads (S := S) "" fits visible room placed.small atStore
    have way := (((held.leads rfl placed.small at_.left.left.left).append (extract atPart)).append
      (coerce_leads (.ref part) fits runC atCoerce)).append (b := stores l s.line) keep
    have inner : Shelters (s.locals.define "" p.note.type.rep).2 L' env :=
      (shelters.keeps keeps).hide (l := l) rfl (Nat.le_add_right _ _) rfl
    exact .leads way keeps
      ((each runT pool rfl stored inner (placed.right keeps)).mono (Nat.le_add_right _ _))

/-! ### Patterns -/

theorem holderTest_leads (setting : Setting module ctx) (hosts : Hosts ctx table site)
    {name : String} {source : Local} {k : Constant} {i : Fragment} {cls : HolderClass}
    {payload : Value} {type : Ty} {line : Int} {s₀ s₁ : State}
    (listed : ∃ cls, table.lookup name = some cls) (rep : source.repr = .ref)
    (typed : HasType table ctx.checked.ctors (.holder cls payload) type) (pool : s.pool.Plain module)
    (held : Held next L source (.holder cls payload)) (runH : holderRef ctx name s₀ = .ok k s₁)
    (runI : emitConst ctx .instanceof k s = .ok i s')
    (placed : Placed site ip (loads source line ++ i) s' L) :
    Leads site ⟨ip, L, S, out⟩ ⟨ip + Fragment.size (loads source line ++ i), L,
      .ofBool (table.lookup name = some cls) :: S, out⟩ := by
  obtain ⟨-, plain, -⟩ := holderRef_ok setting runH
  obtain ⟨j, line', rfl, small, found⟩ :=
    (placed.right (.refl 0 L)).constant setting.named plain pool runI
  have at_ := placed.located
  have same := hosts.instanceof_iff runH listed typed
  rw [← decide_eq_decide.2 same]
  exact (held.leads rep placed.small at_.left).append (.instanceof at_.right small found)

theorem testTag_decides (setting : Setting module ctx) (hosts : Hosts ctx table site) {n : Typed}
    {name : String} {source : Local} (listed : ∃ cls, table.lookup name = some cls)
    (sum : n.type.isSum) (rep : source.repr = n.type.rep)
    (typed : HasType table ctx.checked.ctors v n.type) (pool : s.pool.Plain module)
    (held : Held s.locals.next L source v) (shelters : Shelters s.locals L env)
    (run : testPattern ctx source (.tag n name) s = .ok tests s')
    (placed : Placed site ip (testCode after tests) s' L) :
    Decides site ip (testCode after tests) after L S out s.locals.next s'.locals
      (bindPattern table (.tag n name) v env) := by
  rw [n.type.rep_of_isSum sum] at rep
  obtain ⟨cls, payload, rfl⟩ := typed.holder_inv sum
  obtain ⟨k, i, runH, runI, rfl⟩ := testPattern_tag run
  obtain ⟨-, plain, -⟩ := holderRef_ok setting runH
  obtain ⟨-, -, settles, -⟩ := emitConst_ok setting.named plain runI
  simp only [testCode_code, testCode_orElse, testCode_nil, size_nil, Nat.zero_add] at placed ⊢
  refine .last ((holderTest_leads setting hosts listed rep typed pool held runH runI
    (placed.left (.refl s') (settles.plain pool))).trans (.zeroJump placed.located.right rfl)) rfl
    (shelters.of_entries settles.entries settles.next) ?_
  rw [holds_not]
  by_cases same : table.lookup name = some cls <;> simp [bindPattern, same]

theorem testPattern_decides (setting : Setting module ctx) (hosts : Hosts ctx table site)
    (known : Describes table ctx.checked.ctors) {p : Pattern Typed}
    (pattern : PatternFits ctx.checked.ctors {} p) (names : ∀ name ∈ patternNames p, name ≠ "")
    {source : Local} (rep : source.repr = p.note.type.rep)
    (typed : HasType table ctx.checked.ctors v p.note.type) (pool : s.pool.Plain module)
    (held : Held s.locals.next L source v) (shelters : Shelters s.locals L env)
    (run : testPattern ctx source p s = .ok tests s')
    (placed : Placed site ip (testCode after tests) s' L) :
    Decides site ip (testCode after tests) after L S out s.locals.next s'.locals
      (bindPattern table p v env) := by
  induction pattern generalizing source v s tests s' ip after L env with
  | wild =>
    cases run
    exact ⟨L, .refl _ L, shelters, .refl _⟩
  | @var n name =>
    cases run
    refine ⟨L, .refl _ L, ?_, .refl _⟩
    exact shelters.push (l := { source with name }) (names name (by simp [patternNames]))
      (Nat.le_refl _) rfl (held.rename name)
  | @int n value type =>
    rw [Ty.assign_default] at type
    change source.repr = n.type.rep at rep
    change HasType _ _ v n.type at typed
    rw [type] at rep typed
    obtain ⟨m, rfl⟩ := typed.int_inv known
    obtain ⟨k, runK, rfl⟩ := testPattern_int run
    obtain ⟨-, -, settles, -⟩ := emitConst_ok setting.named (.int value) runK
    simp only [testCode_code, testCode_orElse, testCode_nil, size_nil, Nat.zero_add] at placed ⊢
    obtain ⟨i, line, rfl, small, found⟩ := ((placed.left (.refl s') (settles.plain pool)).right
      (.refl 0 L)).constant setting.named (.int value) pool runK
    have at_ := placed.located
    refine .last (((held.leads rep placed.small at_.left.left).append
      (.iconst at_.left.right small found)).trans (.intJump at_.right rfl)) rfl
      (shelters.of_entries settles.entries settles.next) ?_
    by_cases same : m = value <;> simp [bindPattern, Machine.holds, same]
  | @bool n value type =>
    rw [Ty.assign_default] at type
    change source.repr = n.type.rep at rep
    change HasType _ _ v n.type at typed
    rw [type] at rep typed
    obtain ⟨c, rfl⟩ := typed.bool_inv known
    cases run
    simp only [testCode_code, testCode_orElse, testCode_nil, size_nil, Nat.zero_add] at placed ⊢
    have at_ := placed.located
    refine .last (((held.leads rep placed.small at_.left.left).append
      (.zconst at_.left.right)).trans (.intJump at_.right rfl)) rfl shelters ?_
    cases c <;> cases value <;> rfl
  | @str n value type =>
    rw [Ty.assign_default] at type
    change source.repr = n.type.rep at rep
    change HasType _ _ v n.type at typed
    rw [type] at rep typed
    obtain ⟨x, rfl⟩ := typed.str_inv known
    obtain ⟨k, s₁, c, runK, runC, rfl⟩ := testPattern_str run
    obtain ⟨-, -, first, -⟩ := emitConst_ok setting.named (.string value) runK
    obtain ⟨-, -, second, -⟩ := emitConst_ok setting.named .compare runC
    simp only [testCode_code, testCode_orElse, testCode_nil, size_nil, Nat.zero_add] at placed ⊢
    have tested := placed.left (.refl s') ((first.trans second).plain pool)
    obtain ⟨j, line', rfl, small', found'⟩ := (tested.right (.refl 0 L)).constant setting.named
      .compare (first.plain pool) runC
    obtain ⟨i, line, rfl, small, found⟩ := ((tested.left second.toGrows (first.plain pool)).right
      (.refl 0 L)).constant setting.named (.string value) pool runK
    have at_ := placed.located
    have settles := first.trans second
    refine .last ((((held.leads rep placed.small at_.left.left.left).append
      (.sconst at_.left.left.right small found)).append
      (.compareTexts hosts.linked at_.left.right small' found')).trans (.zeroJump at_.right rfl)) rfl
      (shelters.of_entries settles.entries settles.next) ?_
    change _ = if Machine.holds .ifNe (Word.ofInt (orderNumber (compare x (value : Text)))).toInt 0
      then none else some env
    rw [toInt_ofInt, holds_differ]
    by_cases same : x = (value : Text) <;> simp [bindPattern, same]
  | @nil n elem type =>
    rw [Ty.assign_default] at type
    change source.repr = n.type.rep at rep
    change HasType _ _ v n.type at typed
    rw [type] at rep typed
    obtain ⟨vs, rfl, -⟩ := typed.list_inv known
    cases run
    simp only [testCode_code, testCode_orElse, testCode_nil, size_nil, Nat.zero_add] at placed ⊢
    have at_ := placed.located
    refine .last (((held.leads rep placed.small at_.left.left).append
      (.listIsEmpty at_.left.right)).trans (.zeroJump at_.right rfl)) rfl shelters ?_
    cases vs <;> rfl
  | @cons n head tail typeHead typeTail _ _ ihHead ihTail =>
    rw [Ty.assign_default, Ty.assign_default] at typeHead
    rw [Ty.assign_default, Ty.assign_default] at typeTail
    change source.repr = n.type.rep at rep
    change HasType _ _ v n.type at typed
    have tailTyped := typed
    rw [typeTail] at tailTyped
    rw [typeHead] at rep typed
    obtain ⟨vs, rfl, each⟩ := typed.list_inv known
    obtain ⟨heads, s₁, tails, runH, runT, rfl⟩ := testPattern_cons run
    simp only [testCode_code, testCode_orElse] at placed ⊢
    have at_ := placed.located
    refine .test (((held.leads rep placed.small at_.left.left).append
      (.listIsEmpty at_.left.right)).trans (.zeroJump at_.right.head rfl)) rfl ?_ ?_
    · intro leaves
      cases vs with
      | nil => rfl
      | cons => cases leaves
    · intro stays
      cases vs with
      | nil => cases stays
      | cons x xs =>
        have bindsH := testPart_binds (fun l s tests s' => testPattern_binds setting) runH
        have bindsT := testPart_binds (fun l s tests s' => testPattern_binds setting) runT
        have poolH := bindsH.plain pool
        rw [testCode_append] at placed ⊢
        have inside := (placed.right (.refl 0 L)).right (a := [_]) (.refl 0 L)
        have first := testPart_decides setting known
          (fun at_ => rep ▸ .listHead at_) (each x List.mem_cons_self) pool held shelters
          runH (inside.left bindsT.toGrows poolH) fun run pool rep held shelters placed =>
            ihHead (fun name member => names name (List.mem_append_left _ member)) rep
              (each x List.mem_cons_self) pool held shelters run placed
        refine .both first fun env' L' _ keeps shelters' => Decides.mono ?_ bindsH.next
        have listed : HasType table ctx.checked.ctors (.list xs) tail.note.type := by
          rw [← typeTail, typeHead]
          exact .list fun y member => each y (List.mem_cons_of_mem x member)
        exact testPart_decides setting known
          (fun at_ => rep ▸ .listTail at_) listed poolH ((held.keeps keeps).mono bindsH.next)
          shelters' runT (inside.right keeps) fun run pool rep held shelters placed =>
            ihTail (fun name member => names name (List.mem_append_right _ member)) rep
              listed pool held shelters run placed
  | @tag n name c found bare used =>
    have sum := known.isSum_of_bare found bare used
    obtain ⟨cls, listed, -⟩ := known.classed found
    rw [Ty.assign_default] at sum
    exact testTag_decides setting hosts ⟨cls, listed⟩ sum rep typed pool held shelters run placed
  | @tagOfArg n name c payload found filled used =>
    have sum := known.isSum_of_filled found filled used
    obtain ⟨cls, listed, -⟩ := known.classed found
    rw [Ty.assign_default] at sum
    exact testTag_decides setting hosts ⟨cls, listed⟩ sum rep typed pool held shelters run placed
  | @build n name arg c found filled used _ ih =>
    have sum := known.isSum_of_filled found filled used
    rw [Ty.assign_default] at sum
    change source.repr = n.type.rep at rep
    change HasType _ _ v n.type at typed
    rw [n.type.rep_of_isSum sum] at rep
    obtain ⟨cls, payload, rfl⟩ := typed.holder_inv sum
    obtain ⟨k, i, s₁, args, runH, runI, runA, rfl⟩ := testPattern_build run
    obtain ⟨-, plain, -⟩ := holderRef_ok setting runH
    obtain ⟨-, -, settles, -⟩ := emitConst_ok setting.named plain runI
    have pool₁ := settles.plain pool
    have binds := testPart_binds (fun l s tests s' => testPattern_binds setting) runA
    simp only [testCode_code, testCode_orElse] at placed ⊢
    have at_ := placed.located
    obtain ⟨own, listed, filled'⟩ := known.classed found
    refine .test ((holderTest_leads setting hosts ⟨own, listed⟩ rep typed pool held runH runI
      (placed.left binds.toGrows pool₁)).trans (.zeroJump at_.right.head rfl)) rfl ?_ ?_
    · intro leaves
      rw [holds_not, Bool.not_eq_true', decide_eq_false_iff_not] at leaves
      simp [bindPattern, leaves]
    · intro stays
      rw [holds_not, Bool.not_eq_false', decide_eq_true_iff] at stays
      have inner := HasType.payload_of_instance known found filled used stays
        ((Ty.assign_default n.type).symm ▸ typed)
      rw [Ty.assign_default] at inner
      have hasArg : cls.hasArg = true := by
        rw [listed, Option.some.injEq] at stays
        rw [← stays, filled', filled]
      simp only [bindPattern, stays, if_true]
      refine Decides.mono ?_ (Nat.le_of_eq settles.next.symm)
      exact testPart_decides setting known (fun at_ => rep ▸ .getpayload at_ hasArg) inner pool₁
        (held.mono (Nat.le_of_eq settles.next.symm))
        (shelters.of_entries settles.entries settles.next) runA
        ((placed.right (.refl 0 L)).right (a := [_]) (.refl 0 L))
        fun run pool rep held shelters placed => ih names rep inner pool held shelters run placed

end StackML.Codegen
