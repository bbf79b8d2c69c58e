import OcCompiler.Proofs.TableSteps
import OcCompiler.Proofs.Visits
import OcCompiler.Proofs.WalkAgrees

/-! Calls. Whenever a node is checked, every function in the symbol table has its parameters recorded. So a call is
    checked against all of them, and one misfit and one wrong number are reported at most. -/

namespace OcCompiler

open Analysis

namespace Typing

open ValueType (describe)

/-- An argument of a known type that its parameter does not accept. -/
def misfits (p : ValueType × Option ValueType) : Bool := p.2.any fun σ => !p.1.accepts σ

/-- The one complaint about the number of arguments: the first that no parameter is left for, or the first parameter that
    is left over. -/
def numberComplaint (params : List ValueType) (args : List (Option ValueType)) : List SemanticCause :=
  (args[params.length]?.map fun found => SemanticCause.extraArgument (describe found)).toList ++
    (params[args.length]?.map fun τ => SemanticCause.missingArgument τ.text).toList

/-- The complaints about a call: the first misfit, if there is one, and the wrong number. -/
def callComplaints (params : List ValueType) (args : List (Option ValueType)) : List SemanticCause :=
  (((params.zip args).find? misfits).map fun p => SemanticCause.mismatch p.1.text (describe p.2)).toList ++
    numberComplaint params args

theorem arguments_named (params : List ValueType) (args : List (Option ValueType)) :
    arguments true (params.map some) args = numberComplaint params args := by
  induction params generalizing args with
  | nil => cases args <;> simp [arguments, numberComplaint]
  | cons τ params ih =>
    cases args with
    | nil => simp [arguments, numberComplaint, describe]
    | cons found args => simpa [arguments, numberComplaint] using ih args

theorem arguments_eq_callComplaints (params : List ValueType) (args : List (Option ValueType)) :
    arguments false (params.map some) args = callComplaints params args := by
  induction params generalizing args with
  | nil => cases args <;> simp [arguments, callComplaints, numberComplaint]
  | cons τ params ih =>
    cases args with
    | nil => simp [arguments, callComplaints, numberComplaint, describe]
    | cons found args =>
      have hnumber : numberComplaint (τ :: params) (found :: args) = numberComplaint params args := by
        simp [numberComplaint]
      rw [callComplaints, hnumber, List.zip_cons_cons, List.find?_cons]
      cases found with
      | none => simpa [arguments, fits, misfits, callComplaints] using ih args
      | some σ =>
        cases h : τ.accepts σ with
        | true => simpa [arguments, fits, misfits, callComplaints, h] using ih args
        | false => simp [arguments, fits, misfits, h, arguments_named, describe]

end Typing

/-! ### Functions and their parameters -/

namespace SymbolTable

/-- If the symbol is a function, its parameters are recorded and are symbols of the table. -/
def Recorded (s : SymbolTable) (id : SymbolId) : Prop :=
  (s.get id).attrs.roles.function = true → ∃ params, (s.get id).params = some params ∧ ∀ p ∈ params, p.index < s.size

def Takes (s : SymbolTable) (f : SymbolId) (types : List ValueType) : Prop :=
  ∃ params, (s.get f).params = some params ∧ params.map (fun p => (s.get p).attrs.type) = types.map some

variable {s s' : SymbolTable}

theorem Spares.recorded (h : Spares s s') {id : SymbolId} (hid : s.Recorded id) : s'.Recorded id := by
  intro hfunction
  obtain ⟨hattrs, hparams⟩ := h.functions id hfunction
  rw [hattrs] at hfunction
  obtain ⟨params, hsome, hlt⟩ := hid hfunction
  exact ⟨params, hparams.trans hsome, fun p hp => Nat.lt_of_lt_of_le (hlt p hp) h.size⟩

theorem Recorded.settle {id : SymbolId} (h : s.Recorded id) (prototype : SymbolId) :
    (s.modify prototype fun x => { x with attrs := x.attrs.settled }).Recorded id := by
  unfold Recorded
  rw [size_modify]
  by_cases hid : id = prototype
  · subst hid
    by_cases hin : id.index < s.size
    · rw [get_modify hin, if_pos rfl]
      exact h
    · rw [get_modify_out (Nat.le_of_not_lt hin)]
      exact h
  · rw [get_modify_of_ne hid]
    exact h

theorem Recorded.takes {f : SymbolId} (h : s.Recorded f) (htyped : s.Typed) (hf : (s.get f).attrs.roles.function = true) :
    ∃ types, s.Takes f types := by
  obtain ⟨params, hparams, hlt⟩ := h hf
  suffices htypes : ∃ types : List ValueType, params.map (fun p => (s.get p).attrs.type) = types.map some by
    obtain ⟨types, htypes⟩ := htypes
    exact ⟨types, params, hparams, htypes⟩
  clear hparams
  induction params with
  | nil => exact ⟨[], rfl⟩
  | cons p params ih =>
    obtain ⟨hp, hrest⟩ := List.forall_mem_cons.mp hlt
    obtain ⟨τ, hτ⟩ := htyped.type hp
    obtain ⟨types, htypes⟩ := ih hrest
    exact ⟨τ :: types, by rw [List.map_cons, List.map_cons, hτ, htypes]⟩

end SymbolTable

open SymbolTable (Spares Recorded Takes)

namespace Analysis

variable {t : Tree} {n : NodeId} {a b : Analysis} {opened : Bool}

theorem recorded_define (d : Declaration) (roles : Roles) (h : ∀ id, a.symbols.Recorded id) {id : SymbolId}
    (hid : id ≠ (a.define d roles).1.symbol) : (a.define d roles).2.symbols.Recorded id := by
  obtain ⟨x, -, hsymbol, -, hplain⟩ := a.define_pushes d roles
  refine hplain.toSpares.recorded ?_
  have hbase := (a.plain_useBase d roles.field).toSpares.recorded (h id)
  rw [hsymbol] at hid
  rw [Recorded, SymbolTable.get_push, if_neg hid]
  intro hfunction
  obtain ⟨params, hparams, hlt⟩ := hbase hfunction
  exact ⟨params, hparams, fun p hp => by rw [SymbolTable.size_push]; exact Nat.lt_succ_of_lt (hlt p hp)⟩

theorem recorded_openFunction (d : Declaration) (paramList : NodeId) (params : List Declaration) (roles : Roles)
    (h : ∀ id, a.symbols.Recorded id) (id : SymbolId) : (a.openFunction d paramList params roles).symbols.Recorded id := by
  let f : SymbolId := (a.define d roles).1.symbol
  let b : Analysis := (a.define d roles).2.enterBlock.2.setBlock paramList (a.define d roles).2.enterBlock.1
  obtain ⟨hplain, hlt⟩ := b.plain_defineParams params
  have hblock : Spares (a.define d roles).2.symbols b.symbols := .of_entries rfl
  have hspares := hblock.trans hplain.toSpares
  have hopen : ((a.define d roles).2.openParams f paramList params).2.symbols.Recorded id := by
    show SymbolTable.Recorded (SymbolTable.modify _ f _) id
    rw [Recorded, SymbolTable.get_modify (Nat.lt_of_lt_of_le (a.define_lt d roles) hspares.size), SymbolTable.size_modify]
    split
    · exact fun _ => ⟨_, rfl, hlt⟩
    · rename_i hne
      exact hspares.recorded (recorded_define d roles h hne)
  rw [openFunction_eq]
  dsimp only
  split
  · have hmatch := hopen.settle
    unfold matchPrototype
    dsimp only
    split <;> exact hmatch _
  · exact hopen

theorem recorded_defineFunction {roles : Roles} (h : ∀ id, a.symbols.Recorded id) (hb : a.defineFunction t n roles = .ok b)
    (id : SymbolId) : b.symbols.Recorded id := by
  obtain ⟨decl, -, hb⟩ := bind_eq_ok_iff.mp hb
  obtain ⟨paramList, -, hb⟩ := bind_eq_ok_iff.mp hb
  obtain ⟨d, -, hb⟩ := bind_eq_ok_iff.mp hb
  obtain ⟨params, -, hb⟩ := bind_eq_ok_iff.mp hb
  have hopen := recorded_openFunction d paramList params roles h id
  dsimp only at hb
  split at hb
  · cases hb
    exact hopen
  · obtain ⟨body, -, hb⟩ := bind_eq_ok_iff.mp hb
    split at hb <;> cases hb <;> exact hopen

theorem recorded_enter (h : ∀ id, a.symbols.Recorded id) (hb : a.enter t n = .ok (opened, b)) (id : SymbolId) :
    b.symbols.Recorded id := by
  have hplace : ∀ id, (a.place n (t.tag n)).symbols.Recorded id := by
    rw [symbols_place]
    exact h
  unfold enter at hb
  split at hb
  · obtain ⟨⟨accepted, c⟩, hc, hb⟩ := bind_eq_ok_iff.mp hb
    have hdefine := (plain_defineStruct hc).toSpares.recorded (hplace id)
    cases hb
    cases accepted <;> exact hdefine
  · obtain ⟨c, hc, hb⟩ := bind_eq_ok_iff.mp hb
    cases hb
    exact recorded_defineFunction hplace hc id
  · obtain ⟨c, hc, hb⟩ := bind_eq_ok_iff.mp hb
    cases hb
    exact recorded_defineFunction hplace hc id
  · split at hb <;> cases hb <;> exact h id
  · cases hb
    exact hplace id

/-- The decoration of a name in use agrees with the symbol that it names. -/
structure Refers (a : Analysis) (x : NodeId) (f : SymbolId) : Prop where
  lt : f.index < a.symbols.size
  type : (a.decoration x).attrs.type = (a.symbols.get f).attrs.type
  function : (a.decoration x).attrs.roles.function = (a.symbols.get f).attrs.roles.function

/-- What holds whenever a node is visited. -/
structure Linked (t : Tree) (a : Analysis) : Prop where
  sound : a.symbols.Sound
  typed : a.symbols.Typed
  recorded : ∀ id, a.symbols.Recorded id
  names : ∀ x f, t.tag x = .name → (a.decoration x).symbol = some f → a.Refers x f

theorem linked_empty (log : Log) : Linked t { log } where
  sound := SymbolTable.sound_empty
  typed := SymbolTable.typed_empty
  recorded _ h := nomatch h
  names _ _ _ h := nomatch h

theorem Linked.step {S : NodeId → Prop} (h : Linked t a) (hworks : Works t S a b) (hsteps : SymbolTable.Steps a.symbols b.symbols)
    (hrecorded : ∀ id, b.symbols.Recorded id)
    (hself : ∀ x f, S x → t.tag x = .name → (b.decoration x).symbol = some f → b.Refers x f) : Linked t b where
  sound := (hworks.symbols h.sound).sound
  typed := hsteps.typed h.typed
  recorded := hrecorded
  names x f hx hf := by
    by_cases hS : S x
    · exact hself x f hS hx hf
    · have hevolves := hworks.symbols h.sound
      have hdecor := hworks.decor x (by rw [hx]; rfl) hS
      rw [hdecor] at hf
      obtain ⟨hlt, htype, hfunction⟩ := h.names x f hx hf
      have hkeeps := hevolves.keeps f hlt
      refine ⟨Nat.lt_of_lt_of_le hlt hevolves.size, by rw [hdecor, hkeeps.type, htype], ?_⟩
      rw [hdecor, hfunction]
      rcases hkeeps.attrs with heq | ⟨-, heq⟩ <;> rw [heq]
      rfl

theorem refers_refer (hsound : a.symbols.Sound) {x : Lexeme} {f : SymbolId} (hf : ((a.refer n x).decoration n).symbol = some f) :
    (a.refer n x).Refers n f := by
  unfold refer at hf ⊢
  split at hf
  · rename_i id hid
    have hdecor := a.decoration_decorate n n ⟨(a.symbols.get id).attrs, (a.symbols.get id).block, some id⟩
    rw [if_pos rfl] at hdecor
    rw [hdecor] at hf
    cases hf
    exact ⟨hsound.lookup_lt hid, by rw [hdecor]; rfl, by rw [hdecor]; rfl⟩
  · have hdecor := a.decoration_decorate n n { block := a.symbols.currentBlock }
    rw [if_pos rfl] at hdecor
    cases hf.symm.trans (congrArg Decoration.symbol hdecor)

theorem linked_enter (hshape : t.Shaped) (h : Linked t a) (hb : a.enter t n = .ok (opened, b)) : Linked t b := by
  refine h.step (works_enter hshape hb) (steps_enter hb) (recorded_enter h.recorded hb) ?_
  rintro x f rfl hx hf
  obtain ⟨-, rfl⟩ := enter_of_isExpr (by rw [hx]; rfl) hb
  unfold place at hf ⊢
  dsimp only at hf ⊢
  split at hf
  · rename_i hdone
    rw [if_pos hdone]
    exact h.names x f hx hf
  · simp_all

theorem linked_leave (hshape : t.Shaped) (h : Linked t a) (hb : a.leave t n opened = .ok b) : Linked t b := by
  obtain ⟨c, hsettle, hb⟩ := bind_eq_ok_iff.mp hb
  have hplain := plain_settle hsettle
  have hc : Linked t c := by
    refine h.step (works_settle hshape hsettle) hplain.steps (fun id => hplain.toSpares.recorded (h.recorded id)) ?_
    rintro x f rfl hx hf
    rw [settle, hx] at hsettle
    cases hsettle
    exact refers_refer h.sound hf
  cases hb
  cases opened
  · exact hc
  · have hspares : Spares c.symbols c.symbols.exitBlock.2 := .of_entries (by unfold SymbolTable.exitBlock; split <;> rfl)
    exact hc.step (S := fun _ => False) (effect_exitBlock c).worksNowhere (SymbolTable.Step.exitBlock.steps)
      (fun id => hspares.recorded (hc.recorded id)) nofun

theorem linked_check (hshape : t.Shaped) (h : Linked t a) (hb : a.check t n = .ok b) : Linked t b := by
  have hsymbols := symbols_check hb
  refine h.step (works_check hshape hb) (by rw [hsymbols]; exact .refl _) (by rw [hsymbols]; exact h.recorded) ?_
  rintro x f rfl hx hf
  obtain ⟨v, hv, rfl⟩ := check_eq_apply (by simp [hx]) hb
  rw [verdict, hx] at hv
  cases hv
  exact h.names x f hx hf

theorem check_call (hshape : t.Shaped) (h : Linked t a) (hcall : t.tag n = .call) :
    ∃ callee args, t.children n = callee :: args ∧ t.tag callee = .name ∧
      ∀ f, (a.decoration callee).symbol = some f → (a.symbols.get f).attrs.roles.function = true →
        ∃ types result, a.symbols.Takes f types ∧ (a.symbols.get f).attrs.type = some result ∧
          a.check t n = .ok ((((Typing.callComplaints types (args.map a.typeOf)).map (·.about (t.lexeme callee))).foldl
            report a).setType n result) := by
  have hfits := hshape.fits (n := n) (by simp [hcall])
  obtain ⟨callee, hcallee⟩ := hfits.child (i := 0) (by rw [hcall]; exact Nat.one_pos)
  have hname := (hfits.isExpr_first (.inl hcall) hcallee).2 hcall
  obtain ⟨args, hargs⟩ : ∃ args, t.children n = callee :: args := by
    unfold Tree.child at hcallee
    cases hchildren : t.children n <;> simp_all
  refine ⟨callee, args, hargs, hname, fun f hf hfunction => ?_⟩
  obtain ⟨types, params, hparams, htypes⟩ := (h.recorded f).takes h.typed hfunction
  obtain ⟨hlt, htype, hrole⟩ := h.names callee f hname hf
  obtain ⟨result, hresult⟩ := h.typed.type hlt
  refine ⟨types, result, ⟨params, hparams, htypes⟩, hresult, ?_⟩
  have hcall' : a.callVerdict callee args (t.lexeme callee) =
      ⟨(Typing.callComplaints types (args.map a.typeOf)).map (·.about (t.lexeme callee)), result⟩ := by
    simp [callVerdict, hf, hrole, hfunction, hparams, htypes, htype, hresult, Typing.arguments_eq_callComplaints]
  have hverdict : a.verdict t n = .ok (a.callVerdict callee args (t.lexeme callee)) := by
    rw [verdict, hcall]
    dsimp only
    rw [hcallee, ok_bind, hargs]
    rfl
  rw [check, hverdict, hcall', ok_bind, if_neg (by simp [hcall]), ok_bind]
  rfl

variable {tokens : List Token} {root : NodeId}

/-- Every call is checked, and whenever a node is checked, all functions have their parameters. Of a call of a function,
    the first argument of a known type that does not fit its parameter is reported, then the first argument that is too
    many or the first parameter without one, and nothing else, and the call has the type of the function. -/
theorem call_complaints_minimal (h : Tree.empty.parse tokens = (.ok root, t)) (log : Log) :
    (∀ n, t.tag n = .call → ∃ a, Checks t t.size .root { log } n a) ∧
    ∀ n a, Checks t t.size .root { log } n a →
      (∀ f, (a.symbols.get f).attrs.roles.function = true → ∃ types, a.symbols.Takes f types) ∧
      (t.tag n = .call → ∃ callee args, t.children n = callee :: args ∧ t.tag callee = .name ∧
        ∀ f, (a.decoration callee).symbol = some f → (a.symbols.get f).attrs.roles.function = true →
          ∃ types result, a.symbols.Takes f types ∧ (a.symbols.get f).attrs.type = some result ∧
            a.check t n = .ok ((((Typing.callComplaints types (args.map a.typeOf)).map (·.about (t.lexeme callee))).foldl
              report a).setType n result)) := by
  obtain ⟨-, hshows, hsize⟩ := Tree.parse_shows h
  have hwell := Tree.wellShaped_of_parse h (List.Subset.refl _)
  have hshape := hwell.shaped
  refine ⟨fun n hn => ?_, fun n a hchecks => ?_⟩
  · obtain ⟨b, hb, -⟩ := visitWithin_ends hshape t.size .root (a := { log }) SymbolTable.tagsKnown_empty
    refine exists_checks hb ((hwell.mem_walk n).mpr ⟨?_, by simp [hn]⟩)
    by_contra hout
    rw [Tree.tag, Tree.node_eq_absent (Nat.le_of_not_lt hout)] at hn
    cases hn
  · have hlinked := hchecks.kept (linked_enter hshape) (linked_leave hshape) (linked_check hshape) (linked_empty log)
    exact ⟨fun f hf => (hlinked.recorded f).takes hlinked.typed hf, check_call hshape hlinked⟩

/-- Calls of a function in its own body and through a prototype: two arguments that do not fit and none left over, one
    that does not fit and one too many, and one that is missing. -/
theorem call_complaints_minimal_mixed :
    ∃ s root t a, TokenStream.ofText "t" ("void g(bool b);\nvoid f(int i, string s) \x7b f(s, i); f(i); \x7d\n" ++
        "g(\"\", 1);") = .ok s ∧ Tree.empty.parse s.tokens = (.ok root, t) ∧ ofTree t #[] = .ok a ∧
      a.log.toList.map (fun d => (d.cause, d.name)) = [(.semantic (.mismatch "int" "string"), "f"),
        (.semantic (.missingArgument "string"), "f"), (.semantic (.mismatch "bool" "string"), "g"),
        (.semantic (.extraArgument "int"), "g")] ∧
      (∀ n, t.tag n = .call → ∃ b, Checks t t.size .root {} n b) ∧
      ∀ n b, Checks t t.size .root {} n b →
        ∀ f, (b.symbols.get f).attrs.roles.function = true → ∃ types, b.symbols.Takes f types := by
  have hread : passes ("void g(bool b);\nvoid f(int i, string s) \x7b f(s, i); f(i); \x7d\ng(\"\", 1);") (fun _ a =>
      a.log.toList.map (fun d => (d.cause, d.name)) = [(.semantic (.mismatch "int" "string"), "f"),
        (.semantic (.missingArgument "string"), "f"), (.semantic (.mismatch "bool" "string"), "g"),
        (.semantic (.extraArgument "int"), "g")]) = true := by
    decide +kernel
  obtain ⟨s, root, t, a, hs, hparse, ha, hlog⟩ := exists_of_passes hread
  obtain ⟨hcalls, hchecks⟩ := call_complaints_minimal hparse #[]
  exact ⟨s, root, t, a, hs, hparse, ha, of_decide_eq_true hlog, hcalls, fun n b h => (hchecks n b h).1⟩

end Analysis

end OcCompiler
