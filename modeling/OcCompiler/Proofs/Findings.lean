import OcCompiler.Analysis.Check
import OcCompiler.Analysis.Resolve
import OcCompiler.Proofs.Judgement

/-! What there is to say of an expression, as a function of the environment: the complaints about it, and its type. There
    is no complaint exactly if the expression has a type in the judgement. -/

namespace OcCompiler

open Analysis

/-- The complaints about an expression, its type, if that is known, and whether it is a place. -/
structure Finding where
  complaints : List Diagnostic := []
  type : Option ValueType := none
  isPlace : Bool := false

/-- The finding at a node with the tag, from the complaints about its operands and its own verdict. -/
def Finding.judge (tag : Tag) (complaints : List Diagnostic) (v : Verdict) : Finding where
  complaints := complaints ++ v.reports
  type := v.type.or tag.initialAttributes.type
  isPlace := tag.initialAttributes.roles.lvalue

namespace Env

/-- The complaint about a name that stands for nothing. -/
def undeclared (Γ : Env) (x : Lexeme) : List Diagnostic :=
  if (Γ.lookup x.text).isSome then [] else [SemanticCause.undeclared.about x]

/-- The complaint about a struct without a body. -/
def incomplete (Γ : Env) : TypeName → List Diagnostic
  | .struct tag => if (Γ.fields? tag.text).isSome then [] else [SemanticCause.incomplete.about tag]
  | .scalar _ _ => []

def selectVerdict (Γ : Env) (object : Option ValueType) (dot field : Lexeme) : Verdict :=
  match object with
  | none => {}
  | some (.struct tag) =>
    match (Γ.fields? tag).map (·.lookup field.text) with
    | some (some τ) => { type := some τ }
    | some none => { reports := [(SemanticCause.unknownField (ValueType.struct tag).text).about field] }
    | none => { reports := [SemanticCause.incomplete.about ⟨tag, field.loc⟩] }
  | some other => { reports := [(SemanticCause.notSelectable other.text).about dot] }

def callVerdict (Γ : Env) (callee : Lexeme) (args : List (Option ValueType)) : Verdict :=
  match Γ.lookup callee.text with
  | none => {}
  | some (.var _) => { reports := [SemanticCause.notCallable.about callee] }
  | some (.function sig _) =>
    { reports := (Typing.arguments false ((sig.params.map (·.2)).map some) args).map (·.about callee)
      type := sig.result }

end Env

namespace Expr

mutual

def finding (Γ : Env) : Expr → Finding
  | .name x =>
    match Γ.lookup x.text with
    | some (.var τ) => { type := τ, isPlace := true }
    | some (.function sig _) => { type := sig.result }
    | none => { complaints := [SemanticCause.undeclared.about x] }
  | .constant c _ => { type := c.type }
  | .unary op mark e =>
    let f := e.finding Γ
    .judge (.unary op) f.complaints (.operand (Typing.operand op) f.type mark)
  | .binary op left mark right =>
    let f := left.finding Γ
    let g := right.finding Γ
    .judge (.binary op) (f.complaints ++ g.complaints) (.binary op f.type f.isPlace g.type mark)
  | .call callee _ args =>
    let fs := findings Γ args
    .judge .call (Γ.undeclared callee ++ fs.flatMap (·.complaints)) (Γ.callVerdict callee (fs.map (·.type)))
  | .index base bracket subscript =>
    let f := base.finding Γ
    let g := subscript.finding Γ
    .judge .index (f.complaints ++ g.complaints) (.index f.type g.type bracket)
  | .select object dot field =>
    let f := object.finding Γ
    .judge .select f.complaints (Γ.selectVerdict f.type dot field)
  | .newStruct _ tag => { complaints := Γ.incomplete (.struct tag), type := some (.struct tag.text) }
  | .newString mark count =>
    let f := count.finding Γ
    .judge .newString f.complaints (.operand .int f.type mark)
  | .newArray element mark count =>
    let f := count.finding Γ
    .judge .newArray (f.complaints ++ Γ.incomplete element) (.newArray element.base f.type mark)

def findings (Γ : Env) : List Expr → List Finding
  | [] => []
  | e :: es => e.finding Γ :: findings Γ es

end

end Expr

theorem Analysis.complaint_eq_nil_iff {lexeme : Lexeme} {cause : Option SemanticCause} :
    complaint lexeme cause = [] ↔ cause = none := by
  cases cause <;> simp [complaint]

theorem Env.incomplete_eq_nil_iff {Γ : Env} {name : TypeName} : Γ.incomplete name = [] ↔ Γ.Complete name.base := by
  cases name <;> simp [incomplete, Complete, TypeName.base, Option.isSome_iff_ne_none]

section Types

variable {Γ : Env}

theorem forall₂_iff_arguments {params : List (String × ValueType)} {σs : List ValueType} :
    List.Forall₂ (fun p σ => p.2.accepts σ = true) params σs ↔
      Typing.arguments false ((params.map (·.2)).map some) (σs.map some) = [] := by
  rw [Typing.arguments_eq_nil_iff, ← List.forall₂_map_left_iff (f := fun p : String × ValueType => p.2)
    (R := fun τ σ => τ.accepts σ = true), List.forall₂_iff_zip]
  simp [Prod.forall]

attribute [local simp] Expr.finding Finding.judge Tag.initialAttributes Attributes.typed Verdict.operand Verdict.binary Verdict.index
  Verdict.newArray complaint Typing.exactly Typing.element

mutual

theorem HasType.finding_eq {τ : ValueType} {l : Bool} (e : Expr) (h : HasType Γ e τ l) : e.finding Γ = ⟨[], some τ, l⟩ := by
  cases e with
  | name x =>
    cases h with
    | var h => simp [h]
    | functionName h => simp [h]
  | constant c lexeme =>
    cases h
    rfl
  | unary op mark e =>
    cases h with
    | unary h => cases op <;> simp [HasType.finding_eq e h, UnaryOp.result]
  | binary op left mark right =>
    cases h with
    | assign h h' hfits =>
      simp [HasType.finding_eq left h, HasType.finding_eq right h', Typing.assignment_eq_none_iff.mpr ⟨rfl, hfits⟩]
    | equality hc h h' hvoid hfits =>
      simp [HasType.finding_eq left h, HasType.finding_eq right h', Typing.comparison, hc,
        Typing.equality_eq_none_iff.mpr ⟨hvoid, hfits⟩]
    | order hc h h' hordered =>
      simp [HasType.finding_eq left h, HasType.finding_eq right h', Typing.comparison, hc,
        Typing.relation_eq_none_iff.mpr ⟨hordered, rfl⟩]
    | arith h h' =>
      simp [HasType.finding_eq left h, HasType.finding_eq right h', Typing.arithmetic_eq_none_iff.mpr ⟨rfl, rfl⟩]
  | call callee paren args =>
    cases h with
    | call hx hs hfits =>
      obtain ⟨hnone, htypes⟩ := HasTypes.findings_eq args hs
      have hfits := forall₂_iff_arguments.mp hfits
      simp only [Expr.finding, hnone, htypes, Env.undeclared, Env.callVerdict, hx, hfits]
      rfl
  | index base bracket subscript =>
    cases h with
    | element h h' => simp [HasType.finding_eq base h, HasType.finding_eq subscript h']
    | character h h' => simp [HasType.finding_eq base h, HasType.finding_eq subscript h']
  | select object dot field =>
    cases h with
    | select h hfields hfield => simp [HasType.finding_eq object h, Env.selectVerdict, hfields, hfield]
  | newStruct mark tag =>
    cases h with
    | newStruct hc => simp [(@Env.incomplete_eq_nil_iff _ (.struct tag)).mpr hc]
  | newString mark count =>
    cases h with
    | newString h => simp [HasType.finding_eq count h]
  | newArray element mark count =>
    cases h with
    | newArray hc hvoid h =>
      simp [HasType.finding_eq count h, Env.incomplete_eq_nil_iff.mpr hc, Typing.arrayLength_eq_none_iff.mpr ⟨hvoid, rfl⟩]

theorem HasTypes.findings_eq {τs : List ValueType} (es : List Expr) (h : HasTypes Γ es τs) :
    (Expr.findings Γ es).flatMap (·.complaints) = [] ∧ (Expr.findings Γ es).map (·.type) = τs.map some := by
  match es, h with
  | [], .nil => exact ⟨rfl, rfl⟩
  | e :: es, .cons h hs =>
    obtain ⟨hnone, htypes⟩ := HasTypes.findings_eq es hs
    simp [Expr.findings, HasType.finding_eq e h, hnone, htypes]

end

mutual

theorem Expr.exists_hasType (e : Expr) (h : (e.finding Γ).complaints = []) : ∃ τ l, HasType Γ e τ l := by
  cases e with
  | name x =>
    rw [finding] at h
    split at h
    · exact ⟨_, _, .var ‹_›⟩
    · exact ⟨_, _, .functionName ‹_›⟩
    · cases h
  | constant c lexeme => exact ⟨_, _, .constant⟩
  | unary op mark e =>
    obtain ⟨he, hv⟩ := List.append_eq_nil_iff.mp h
    obtain ⟨τ, l, he⟩ := Expr.exists_hasType e he
    rw [he.finding_eq, Verdict.operand, complaint_eq_nil_iff, Typing.exactly_eq_none_iff] at hv
    obtain rfl : τ = Typing.operand op := by simpa using hv
    exact ⟨_, _, .unary he⟩
  | newString mark count =>
    obtain ⟨he, hv⟩ := List.append_eq_nil_iff.mp h
    obtain ⟨τ, l, he⟩ := Expr.exists_hasType count he
    rw [he.finding_eq, Verdict.operand, complaint_eq_nil_iff, Typing.exactly_eq_none_iff] at hv
    obtain rfl : τ = .int := by simpa using hv
    exact ⟨_, _, .newString he⟩
  | newStruct mark tag => exact ⟨_, _, .newStruct ((@Env.incomplete_eq_nil_iff _ (.struct tag)).mp h)⟩
  | newArray element mark count =>
    obtain ⟨he, hv⟩ := List.append_eq_nil_iff.mp h
    obtain ⟨he, hc⟩ := List.append_eq_nil_iff.mp he
    obtain ⟨τ, l, he⟩ := Expr.exists_hasType count he
    rw [he.finding_eq, Verdict.newArray, complaint_eq_nil_iff] at hv
    obtain ⟨hvoid, rfl⟩ := Typing.arrayLength_eq_none_iff.mp hv
    exact ⟨_, _, .newArray (Env.incomplete_eq_nil_iff.mp hc) hvoid he⟩
  | select object dot field =>
    obtain ⟨he, hv⟩ := List.append_eq_nil_iff.mp h
    obtain ⟨τ, l, he⟩ := Expr.exists_hasType object he
    rw [he.finding_eq] at hv
    unfold Env.selectVerdict at hv
    split at hv
    · cases ‹some τ = none›
    · cases ‹some τ = some _›
      split at hv
      · obtain ⟨fields, hfields, hfield⟩ := Option.map_eq_some_iff.mp ‹_›
        exact ⟨_, _, .select he hfields hfield⟩
      · cases hv
      · cases hv
    · cases hv
  | index base bracket subscript =>
    obtain ⟨he, hv⟩ := List.append_eq_nil_iff.mp h
    obtain ⟨hbase, hsubscript⟩ := List.append_eq_nil_iff.mp he
    obtain ⟨τ, l, hbase⟩ := Expr.exists_hasType base hbase
    obtain ⟨σ, r, hsubscript⟩ := Expr.exists_hasType subscript hsubscript
    simp only [hbase.finding_eq, hsubscript.finding_eq, Verdict.index, Option.map_some] at hv
    cases hτ : Typing.element τ with
    | error cause =>
      rw [hτ] at hv
      cases hv
    | ok element =>
      rw [hτ] at hv
      have hσ := Typing.exactly_eq_none_iff.mp (complaint_eq_nil_iff.mp hv)
      obtain rfl : σ = .int := by simpa using hσ
      unfold Typing.element at hτ
      split at hτ
      · exact ⟨_, _, .element hbase hsubscript⟩
      · exact ⟨_, _, .character hbase hsubscript⟩
      · cases hτ
  | binary op left mark right =>
    obtain ⟨he, hv⟩ := List.append_eq_nil_iff.mp h
    obtain ⟨hleft, hright⟩ := List.append_eq_nil_iff.mp he
    obtain ⟨τ, l, hleft⟩ := Expr.exists_hasType left hleft
    obtain ⟨σ, r, hright⟩ := Expr.exists_hasType right hright
    rw [hleft.finding_eq, hright.finding_eq] at hv
    cases op with
    | assign =>
      obtain ⟨rfl, hfits⟩ := Typing.assignment_eq_none_iff.mp (complaint_eq_nil_iff.mp hv)
      exact ⟨_, _, .assign hleft hright hfits⟩
    | compare c =>
      replace hv : Typing.comparison c (some τ) (some σ) = none := complaint_eq_nil_iff.mp hv
      cases hc : c.isEquality with
      | true =>
        rw [Typing.comparison, if_pos hc] at hv
        obtain ⟨hvoid, hfits⟩ := Typing.equality_eq_none_iff.mp hv
        exact ⟨_, _, .equality hc hleft hright hvoid hfits⟩
      | false =>
        rw [Typing.comparison, hc] at hv
        obtain ⟨hordered, rfl⟩ := Typing.relation_eq_none_iff.mp hv
        exact ⟨_, _, .order hc hleft hright hordered⟩
    | arith o =>
      obtain ⟨rfl, rfl⟩ := Typing.arithmetic_eq_none_iff.mp (complaint_eq_nil_iff.mp hv)
      exact ⟨_, _, .arith hleft hright⟩
  | call callee paren args =>
    obtain ⟨he, hv⟩ := List.append_eq_nil_iff.mp h
    obtain ⟨hx, hargs⟩ := List.append_eq_nil_iff.mp he
    obtain ⟨σs, hs⟩ := Expr.exists_hasTypes args hargs
    rw [(HasTypes.findings_eq args hs).2, Env.callVerdict] at hv
    split at hv
    · simp [Env.undeclared, *] at hx
    · cases hv
    · exact ⟨_, _, .call ‹_› hs (forall₂_iff_arguments.mpr (List.map_eq_nil_iff.mp hv))⟩

theorem Expr.exists_hasTypes (es : List Expr) (h : (Expr.findings Γ es).flatMap (·.complaints) = []) :
    ∃ τs, HasTypes Γ es τs := by
  match es with
  | [] => exact ⟨_, .nil⟩
  | e :: es =>
    obtain ⟨he, hes⟩ := List.append_eq_nil_iff.mp h
    obtain ⟨τ, l, he⟩ := Expr.exists_hasType e he
    obtain ⟨τs, hes⟩ := Expr.exists_hasTypes es hes
    exact ⟨_, .cons he hes⟩

end

end Types

/-- There are these complaints about the expression, and its type is the given one, unless it is not known. -/
def Expr.Yields (e : Expr) (Γ : Env) (us : List Diagnostic) (τ : ValueType) : Prop :=
  (e.finding Γ).complaints = us ∧ ((e.finding Γ).type = some τ ∨ (e.finding Γ).type = none)

section Yields

variable {Γ : Env} {us : List Diagnostic} {e : Expr} {τ : ValueType}

theorem Expr.Yields.of_hasType {l : Bool} (h : HasType Γ e τ l) : e.Yields Γ [] τ := by
  rw [Yields, h.finding_eq]
  exact ⟨rfl, .inl rfl⟩

/-- A rule with nothing to say of the type has nothing to say of the expression. -/
theorem Expr.Yields.silent (h : e.Yields Γ us τ) (rule : Option ValueType → Option SemanticCause)
    (hrule : rule (some τ) = none) (hnone : rule none = none) : rule (e.finding Γ).type = none := by
  rcases h.2 with htype | htype
  · rw [htype, hrule]
  · rw [htype, hnone]

theorem Expr.Yields.operand (h : e.Yields Γ us τ) (mark : Lexeme) :
    (Verdict.operand τ (e.finding Γ).type mark).reports = [] :=
  complaint_eq_nil_iff.mpr (h.silent _ (Typing.exactly_eq_none_iff.mpr (.inr rfl)) rfl)

end Yields

end OcCompiler
