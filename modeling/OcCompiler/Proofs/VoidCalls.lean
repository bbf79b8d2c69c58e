import OcCompiler.Proofs.Judgement
import OcCompiler.Proofs.Symbols

/-! Where void calls stand. The rules on types keep calls of functions that give back nothing out of most positions, but
    not out of the base of an index, the value of an assignment and a value returned outside all functions. -/

namespace OcCompiler

/-- Where an expression stands in the construct around it. -/
inductive Position where
  | statement
  | target
  | assigned
  | operand
  | base
  | subscript
  | object
  | argument
  | count
  | initializer
  | condition
  /-- A value that is returned, from a function or outside all functions. -/
  | returned (outside : Bool)
deriving DecidableEq, Repr

namespace Position

def left : BinaryOp → Position
  | .assign => .target
  | .compare _ | .arith _ => .operand

def right : BinaryOp → Position
  | .assign => .assigned
  | .compare _ | .arith _ => .operand

def isOpen : Position → Bool
  | .statement | .base | .assigned | .returned true => true
  | _ => false

end Position

namespace Expr

def isCallOf (vs : List String) : Expr → Bool
  | .call callee _ _ => vs.contains callee.text
  | _ => false

mutual

/-- Where calls of the functions in `vs` stand in an expression that stands at `p` itself. -/
def callsOf (vs : List String) (p : Position) : Expr → List Position
  | .name _ | .constant .. | .newStruct .. => []
  | .unary _ _ e => e.callsOf vs .operand
  | .binary op left _ right => left.callsOf vs (.left op) ++ right.callsOf vs (.right op)
  | .call callee _ args => (if vs.contains callee.text then [p] else []) ++ callsOfAll vs args
  | .index base _ subscript => base.callsOf vs .base ++ subscript.callsOf vs .subscript
  | .select object _ _ => object.callsOf vs .object
  | .newString _ count | .newArray _ _ count => count.callsOf vs .count

def callsOfAll (vs : List String) : List Expr → List Position
  | [] => []
  | e :: es => e.callsOf vs .argument ++ callsOfAll vs es

end

end Expr

namespace Stmt

mutual

def callsOf (vs : List String) (outside : Bool) : Stmt → List Position
  | .block _ body => callsOfAll vs outside body
  | .empty _ | .returnVoid _ => []
  | .varDecl _ _ init => init.callsOf vs .initializer
  | .whileLoop _ cond body => cond.callsOf vs .condition ++ body.callsOf vs outside
  | .ifThen _ cond yes => cond.callsOf vs .condition ++ yes.callsOf vs outside
  | .ifElse _ cond yes no => cond.callsOf vs .condition ++ (yes.callsOf vs outside ++ no.callsOf vs outside)
  | .returnValue _ value => value.callsOf vs (.returned outside)
  | .expr e => e.callsOf vs .statement

def callsOfAll (vs : List String) (outside : Bool) : List Stmt → List Position
  | [] => []
  | s :: ss => s.callsOf vs outside ++ callsOfAll vs outside ss

end

end Stmt

namespace Item

def function? : Item → Option Decl
  | .function d .. | .prototype d .. => some d
  | .struct .. | .stmt _ => none

def callsOf (vs : List String) : Item → List Position
  | .struct .. | .prototype .. => []
  | .function _ _ _ _ body => Stmt.callsOfAll vs false body
  | .stmt s => s.callsOf vs true

end Item

namespace Program

def functions (items : List Item) : List Decl := items.filterMap Item.function?

def voidNames (items : List Item) : List String := ((functions items).filter (·.type.isVoid)).map (·.name.text)

def voidCalls (items : List Item) : List Position := items.flatMap (Item.callsOf (voidNames items))

end Program

/-! ### Positions that are not open -/

variable {vs : List String} {Γ Γ' : Env}
variable {is items : List Item} {params : List Decl} {d : Decl} {i : Item}

theorem ValueType.isVoid_of_accepts {τ σ : ValueType} (h : τ.accepts σ = true) (hτ : τ.isVoid = false) : σ.isVoid = false := by
  rcases accepts_iff.mp h with rfl | ⟨-, rfl⟩
  · exact hτ
  · rfl

theorem ValueType.isOrdered_of_isVoid {τ : ValueType} (h : τ.isVoid = true) : τ.isOrdered = false := by
  unfold isVoid at h
  split at h
  · rfl
  · rfl
  · cases h

/-- What a name stands for fits the names of void functions. -/
def Entry.Fits (vs : List String) (x : String) : Entry → Prop
  | .var _ => True
  | .function sig _ => (x ∈ vs → sig.result.isVoid = true) ∧ ∀ p ∈ sig.params, p.2.isVoid = false

def Env.Fits (vs : List String) (Γ : Env) : Prop := ∀ frame ∈ Γ.inner :: Γ.outer, ∀ p ∈ frame, p.2.Fits vs p.1

namespace Env.Fits

theorem of_lookup (h : Γ.Fits vs) {x : String} {entry : Entry} (hx : Γ.lookup x = some entry) : entry.Fits vs x := by
  obtain ⟨frame, hframe, hfound⟩ := List.exists_of_findSome?_eq_some hx
  exact h frame hframe _ (SymbolTable.mem_of_lookup hfound)

theorem bind (h : Γ.Fits vs) {x : String} {entry : Entry} (hx : entry.Fits vs x) : (Γ.bind x entry).Fits vs := by
  obtain ⟨hinner, houter⟩ := List.forall_mem_cons.mp h
  refine List.forall_mem_cons.mpr ⟨fun p hp => ?_, houter⟩
  rcases List.mem_append.mp hp with hp | hp
  · exact hinner p hp
  · rw [List.mem_singleton.mp hp]
    exact hx

theorem enter (h : Γ.Fits vs) {frame : Frame} (hframe : ∀ p ∈ frame, p.2.Fits vs p.1) : (Γ.enter frame).Fits vs :=
  List.forall_mem_cons.mpr ⟨hframe, h⟩

theorem define (h : Γ.Fits vs) (f : String) : (Γ.define f).Fits vs := by
  obtain ⟨hinner, houter⟩ := List.forall_mem_cons.mp h
  refine List.forall_mem_cons.mpr ⟨fun p hp => ?_, houter⟩
  obtain ⟨⟨x, entry⟩, hq, rfl⟩ := List.mem_map.mp hp
  have hentry := hinner _ hq
  cases entry with
  | var τ => trivial
  | function sig announced => exact hentry

end Env.Fits

mutual

theorem Expr.callsOf_of_hasType (e : Expr) {p q : Position} {τ : ValueType} {l : Bool} (h : HasType Γ e τ l) (hΓ : Γ.Fits vs)
    (hq : q ∈ e.callsOf vs p) : q.isOpen = true ∨ q = p ∧ τ.isVoid = true ∧ l = false := by
  cases e with
  | name | constant | newStruct =>
    rw [callsOf] at hq
    cases hq
  | unary op mark e =>
    rw [callsOf] at hq
    cases h with
    | unary h =>
      rcases Expr.callsOf_of_hasType e h hΓ hq with hopen | ⟨-, hvoid, -⟩
      · exact .inl hopen
      · cases op <;> cases hvoid
  | binary op left mark right =>
    rw [callsOf] at hq
    rcases List.mem_append.mp hq with hq | hq
    · cases h with
      | assign hleft hright =>
        rcases Expr.callsOf_of_hasType left hleft hΓ hq with hopen | ⟨-, -, hplace⟩
        · exact .inl hopen
        · cases hplace
      | equality hc hleft hright hvoid =>
        rcases Expr.callsOf_of_hasType left hleft hΓ hq with hopen | ⟨-, hvoid', -⟩
        · exact .inl hopen
        · cases hvoid.1.symm.trans hvoid'
      | order hc hleft hright hordered =>
        rcases Expr.callsOf_of_hasType left hleft hΓ hq with hopen | ⟨-, hvoid, -⟩
        · exact .inl hopen
        · cases hordered.symm.trans (ValueType.isOrdered_of_isVoid hvoid)
      | arith hleft =>
        rcases Expr.callsOf_of_hasType left hleft hΓ hq with hopen | ⟨-, hvoid, -⟩
        · exact .inl hopen
        · cases hvoid
    · cases h with
      | assign hleft hright =>
        rcases Expr.callsOf_of_hasType right hright hΓ hq with hopen | ⟨rfl, -, -⟩
        · exact .inl hopen
        · exact .inl rfl
      | equality hc hleft hright hvoid =>
        rcases Expr.callsOf_of_hasType right hright hΓ hq with hopen | ⟨-, hvoid', -⟩
        · exact .inl hopen
        · cases hvoid.2.symm.trans hvoid'
      | order hc hleft hright hordered =>
        rcases Expr.callsOf_of_hasType right hright hΓ hq with hopen | ⟨-, hvoid, -⟩
        · exact .inl hopen
        · cases hordered.symm.trans (ValueType.isOrdered_of_isVoid hvoid)
      | arith hleft hright =>
        rcases Expr.callsOf_of_hasType right hright hΓ hq with hopen | ⟨-, hvoid, -⟩
        · exact .inl hopen
        · cases hvoid
  | call callee paren args =>
    rw [callsOf] at hq
    cases h with
    | @call _ _ _ sig announced σs hx hargs hfits =>
      obtain ⟨hresult, hparams⟩ := hΓ.of_lookup hx
      rcases List.mem_append.mp hq with hq | hq
      · split at hq
        · rename_i hmem
          exact .inr ⟨List.mem_singleton.mp hq, hresult (by simpa using hmem), rfl⟩
        · cases hq
      · exact .inl (Expr.callsOfAll_of_hasTypes args hargs hfits hparams hΓ hq)
  | index base bracket subscript =>
    rw [callsOf] at hq
    have hsubscript {r : Bool} (h : HasType Γ subscript .int r) (hq : q ∈ subscript.callsOf vs .subscript) : q.isOpen = true := by
      rcases Expr.callsOf_of_hasType subscript h hΓ hq with hopen | ⟨-, hvoid, -⟩
      · exact hopen
      · cases hvoid
    have hbase {σ : ValueType} {l : Bool} (h : HasType Γ base σ l) (hq : q ∈ base.callsOf vs .base) : q.isOpen = true := by
      rcases Expr.callsOf_of_hasType base h hΓ hq with hopen | ⟨rfl, -, -⟩
      · exact hopen
      · rfl
    rcases List.mem_append.mp hq with hq | hq
    · cases h with
      | element h => exact .inl (hbase h hq)
      | character h => exact .inl (hbase h hq)
    · cases h with
      | element _ h => exact .inl (hsubscript h hq)
      | character _ h => exact .inl (hsubscript h hq)
  | select object dot field =>
    rw [callsOf] at hq
    cases h with
    | select h =>
      rcases Expr.callsOf_of_hasType object h hΓ hq with hopen | ⟨-, hvoid, -⟩
      · exact .inl hopen
      · cases hvoid
  | newString mark count =>
    rw [callsOf] at hq
    cases h with
    | newString h =>
      rcases Expr.callsOf_of_hasType count h hΓ hq with hopen | ⟨-, hvoid, -⟩
      · exact .inl hopen
      · cases hvoid
  | newArray element mark count =>
    rw [callsOf] at hq
    cases h with
    | newArray _ _ h =>
      rcases Expr.callsOf_of_hasType count h hΓ hq with hopen | ⟨-, hvoid, -⟩
      · exact .inl hopen
      · cases hvoid

theorem Expr.callsOfAll_of_hasTypes (es : List Expr) {q : Position} {σs : List ValueType} {params : List (String × ValueType)}
    (h : HasTypes Γ es σs) (hfits : List.Forall₂ (fun p σ => p.2.accepts σ = true) params σs)
    (hparams : ∀ p ∈ params, p.2.isVoid = false) (hΓ : Γ.Fits vs) (hq : q ∈ callsOfAll vs es) : q.isOpen = true := by
  match es with
  | [] =>
    rw [callsOfAll] at hq
    cases hq
  | e :: es =>
    rw [callsOfAll] at hq
    cases h with
    | cons h hs =>
      cases hfits with
      | cons hfit hfits =>
        obtain ⟨hparam, hparams⟩ := List.forall_mem_cons.mp hparams
        rcases List.mem_append.mp hq with hq | hq
        · rcases Expr.callsOf_of_hasType e h hΓ hq with hopen | ⟨-, hvoid, -⟩
          · exact hopen
          · cases (ValueType.isVoid_of_accepts hfit hparam).symm.trans hvoid
        · exact Expr.callsOfAll_of_hasTypes es hs hfits hparams hΓ hq

end

mutual

theorem Stmt.callsOf_of_ok (s : Stmt) {ρ : Option ValueType} {Γ Γ' : Env} (h : StmtOk ρ Γ s Γ') (hΓ : Γ.Fits vs) :
    Γ'.Fits vs ∧ ∀ q ∈ s.callsOf vs ρ.isNone, q.isOpen = true := by
  have hbool {e : Expr} {l : Bool} (h : HasType Γ e .bool l) : ∀ q ∈ e.callsOf vs .condition, q.isOpen = true := by
    intro q hq
    rcases e.callsOf_of_hasType h hΓ hq with hopen | ⟨-, hvoid, -⟩
    · exact hopen
    · cases hvoid
  cases s with
  | block brace body =>
    cases h with
    | block h =>
      rw [callsOf]
      exact ⟨hΓ, (Stmt.callsOfAll_of_ok body h (hΓ.enter (List.forall_mem_nil _))).2⟩
  | empty semicolon | returnVoid mark =>
    cases h
    rw [callsOf]
    exact ⟨hΓ, List.forall_mem_nil _⟩
  | varDecl d equals init =>
    cases h with
    | varDecl hinit hcomplete hfree hvoid hfits =>
      rw [callsOf]
      refine ⟨hΓ.bind trivial, fun q hq => ?_⟩
      rcases init.callsOf_of_hasType hinit hΓ hq with hopen | ⟨-, hvoid', -⟩
      · exact hopen
      · cases (ValueType.isVoid_of_accepts hfits hvoid).symm.trans hvoid'
  | whileLoop mark cond body =>
    cases h with
    | whileLoop hcond hbody =>
      obtain ⟨hΓ', hopen⟩ := Stmt.callsOf_of_ok body hbody hΓ
      rw [callsOf]
      exact ⟨hΓ', List.forall_mem_append.mpr ⟨hbool hcond, hopen⟩⟩
  | ifThen mark cond yes =>
    cases h with
    | ifThen hcond hyes =>
      obtain ⟨hΓ', hopen⟩ := Stmt.callsOf_of_ok yes hyes hΓ
      rw [callsOf]
      exact ⟨hΓ', List.forall_mem_append.mpr ⟨hbool hcond, hopen⟩⟩
  | ifElse mark cond yes no =>
    cases h with
    | ifElse hcond hyes hno =>
      obtain ⟨hΓ', hopen⟩ := Stmt.callsOf_of_ok yes hyes hΓ
      obtain ⟨hΓ'', hopen'⟩ := Stmt.callsOf_of_ok no hno hΓ'
      rw [callsOf]
      exact ⟨hΓ'', List.forall_mem_append.mpr ⟨hbool hcond, List.forall_mem_append.mpr ⟨hopen, hopen'⟩⟩⟩
  | returnValue mark value =>
    cases h with
    | returnValue hvalue hfits =>
      rw [callsOf]
      refine ⟨hΓ, fun q hq => ?_⟩
      rcases value.callsOf_of_hasType hvalue hΓ hq with hopen | ⟨rfl, hvoid, -⟩
      · exact hopen
      · cases ρ with
        | none => rfl
        | some τ =>
          obtain ⟨hτ, hfit⟩ := hfits τ rfl
          cases (ValueType.isVoid_of_accepts hfit hτ).symm.trans hvoid
  | expr e =>
    cases h with
    | expr h =>
      rw [callsOf]
      refine ⟨hΓ, fun q hq => ?_⟩
      rcases e.callsOf_of_hasType h hΓ hq with hopen | ⟨rfl, -, -⟩
      · exact hopen
      · rfl

theorem Stmt.callsOfAll_of_ok (ss : List Stmt) {ρ : Option ValueType} {Γ Γ' : Env} (h : StmtsOk ρ Γ ss Γ') (hΓ : Γ.Fits vs) :
    Γ'.Fits vs ∧ ∀ q ∈ callsOfAll vs ρ.isNone ss, q.isOpen = true := by
  match ss with
  | [] =>
    cases h
    rw [callsOfAll]
    exact ⟨hΓ, List.forall_mem_nil _⟩
  | s :: ss =>
    cases h with
    | cons h hs =>
      obtain ⟨hΓ', hopen⟩ := Stmt.callsOf_of_ok s h hΓ
      obtain ⟨hΓ'', hopen'⟩ := Stmt.callsOfAll_of_ok ss hs hΓ'
      rw [callsOfAll]
      exact ⟨hΓ'', List.forall_mem_append.mpr ⟨hopen, hopen'⟩⟩

end

namespace Env

def resultOf (Γ : Env) (x : String) : Option ValueType :=
  (Γ.inner.lookup x).bind fun
    | .function sig _ => some sig.result
    | .var _ => none

theorem resultOf_of_inner_prefix {x : String} {τ : ValueType} (h : Γ.inner <+: Γ'.inner) (hx : Γ.resultOf x = some τ) :
    Γ'.resultOf x = some τ := by
  obtain ⟨added, hadded⟩ := h
  obtain ⟨entry, hentry, hτ⟩ := Option.bind_eq_some_iff.mp hx
  rw [resultOf, ← hadded, List.lookup_append, hentry]
  exact hτ

theorem resultOf_bind {x : String} {sig : Signature} {announced : Bool} (h : Γ.inner.lookup x = none) :
    (Γ.bind x (.function sig announced)).resultOf x = some sig.result := by
  rw [resultOf, bind, List.lookup_append, h]
  simp

theorem resultOf_define (f x : String) : (Γ.define f).resultOf x = Γ.resultOf x := by
  unfold resultOf define
  dsimp only
  generalize Γ.inner = frame
  induction frame with
  | nil => rfl
  | cons p frame ih =>
    obtain ⟨y, entry⟩ := p
    cases entry with
    | var τ | function sig announced =>
      rw [List.map_cons, List.lookup_cons, List.lookup_cons]
      split
      · rfl
      · exact ih

end Env

mutual

theorem StmtOk.inner_prefix {ρ : Option ValueType} {s : Stmt} {Γ Γ' : Env} (h : StmtOk ρ Γ s Γ') : Γ.inner <+: Γ'.inner := by
  cases h with
  | block | empty | returnValue | returnVoid | expr => exact List.prefix_refl _
  | varDecl => exact List.prefix_append _ _
  | whileLoop hcond hbody => exact hbody.inner_prefix
  | ifThen hcond hyes => exact hyes.inner_prefix
  | ifElse hcond hyes hno => exact hyes.inner_prefix.trans hno.inner_prefix

end

theorem ItemOk.resultOf (h : ItemOk Γ i Γ') :
    (∀ x τ, Γ.resultOf x = some τ → Γ'.resultOf x = some τ) ∧ ∀ d, i.function? = some d → Γ'.resultOf d.name.text = some d.type := by
  cases h with
  | struct => exact ⟨fun x τ hx => hx, nofun⟩
  | prototype hcomplete hfree hparams | function hcomplete hfree hparams hbody =>
    refine ⟨fun x τ hx => Env.resultOf_of_inner_prefix (List.prefix_append _ _) hx, ?_⟩
    rintro d ⟨⟩
    exact Env.resultOf_bind hfree
  | announced hcomplete hmatch hparams hbody =>
    refine ⟨fun x τ hx => by rw [Env.resultOf_define, hx], ?_⟩
    rintro d ⟨⟩
    rw [Env.resultOf_define, Env.resultOf, hmatch]
    rfl
  | stmt h => exact ⟨fun x τ hx => Env.resultOf_of_inner_prefix h.inner_prefix hx, nofun⟩

theorem ItemsOk.resultOf (h : ItemsOk Γ is Γ') :
    (∀ x τ, Γ.resultOf x = some τ → Γ'.resultOf x = some τ) ∧
      ∀ d ∈ Program.functions is, Γ'.resultOf d.name.text = some d.type := by
  induction is generalizing Γ with
  | nil =>
    cases h
    exact ⟨fun x τ hx => hx, List.forall_mem_nil _⟩
  | cons i is ih =>
    cases h with
    | cons h hs =>
      obtain ⟨hkept, hnew⟩ := h.resultOf
      obtain ⟨hkept', hnew'⟩ := ih hs
      refine ⟨fun x τ hx => hkept' x τ (hkept x τ hx), fun d hd => ?_⟩
      obtain ⟨j, hj, hdecl⟩ := List.mem_filterMap.mp hd
      rcases List.mem_cons.mp hj with rfl | hj
      · exact hkept' _ _ (hnew d hdecl)
      · exact hnew' d (List.mem_filterMap.mpr ⟨j, hj, hdecl⟩)

theorem WellFormed.type_eq (h : WellFormed items) {d' : Decl} (hd : d ∈ Program.functions items)
    (hd' : d' ∈ Program.functions items) (hname : d.name.text = d'.name.text) : d.type = d'.type := by
  obtain ⟨Γ, h⟩ := h
  have hresult := h.resultOf.2
  exact Option.some.inj ((hresult d hd).symm.trans (hname ▸ hresult d' hd'))

theorem WellFormed.isVoid_iff (h : WellFormed items) (hd : d ∈ Program.functions items) :
    d.type.isVoid = true ↔ d.name.text ∈ Program.voidNames items := by
  refine ⟨fun hvoid => List.mem_map.mpr ⟨d, List.mem_filter.mpr ⟨hd, hvoid⟩, rfl⟩, fun hmem => ?_⟩
  obtain ⟨d', hd', hname⟩ := List.mem_map.mp hmem
  obtain ⟨hd', hvoid⟩ := List.mem_filter.mp hd'
  rw [h.type_eq hd hd' hname.symm]
  exact hvoid

theorem ParamsOk.fits (h : ParamsOk Γ params) : ∀ p ∈ params.map Decl.binding, p.2.isVoid = false := by
  intro p hp
  obtain ⟨d, hd, rfl⟩ := List.mem_map.mp hp
  exact h.notVoid d hd

theorem BodyOk.callsOf {body : List Stmt} (h : BodyOk Γ d params body) (hΓ : Γ.Fits vs) :
    ∀ q ∈ Stmt.callsOfAll vs false body, q.isOpen = true := by
  obtain ⟨Γ', h⟩ := h.stmts
  refine (Stmt.callsOfAll_of_ok body h (hΓ.enter fun p hp => ?_)).2
  obtain ⟨param, -, rfl⟩ := List.mem_map.mp hp
  trivial

theorem Item.callsOf_of_ok (h : ItemOk Γ i Γ') (hΓ : Γ.Fits vs)
    (hi : ∀ d, i.function? = some d → d.name.text ∈ vs → d.type.isVoid = true) :
    Γ'.Fits vs ∧ ∀ q ∈ i.callsOf vs, q.isOpen = true := by
  cases h with
  | struct => exact ⟨hΓ, List.forall_mem_nil _⟩
  | prototype hcomplete hfree hparams => exact ⟨hΓ.bind ⟨hi _ rfl, hparams.fits⟩, List.forall_mem_nil _⟩
  | @function d _ params _ _ hcomplete hfree hparams hbody =>
    have hentry : (Entry.function (d.signature params) false).Fits vs d.name.text := ⟨hi _ rfl, hparams.fits⟩
    exact ⟨hΓ.bind hentry, hbody.callsOf (hΓ.bind hentry)⟩
  | announced hcomplete hmatch hparams hbody => exact ⟨hΓ.define _, hbody.callsOf (hΓ.define _)⟩
  | stmt h => exact Stmt.callsOf_of_ok _ h hΓ

theorem Item.callsOf_of_itemsOk (h : ItemsOk Γ is Γ') (hΓ : Γ.Fits vs)
    (his : ∀ d ∈ Program.functions is, d.name.text ∈ vs → d.type.isVoid = true) :
    ∀ i ∈ is, ∀ q ∈ i.callsOf vs, q.isOpen = true := by
  induction is generalizing Γ with
  | nil => exact List.forall_mem_nil _
  | cons i is ih =>
    cases h with
    | cons h hs =>
      obtain ⟨hΓ', hopen⟩ := Item.callsOf_of_ok h hΓ fun d hd => his d (List.mem_filterMap.mpr ⟨i, List.mem_cons_self, hd⟩)
      refine List.forall_mem_cons.mpr ⟨hopen, ih hs hΓ' fun d hd => ?_⟩
      obtain ⟨j, hj, hd⟩ := List.mem_filterMap.mp hd
      exact his d (List.mem_filterMap.mpr ⟨j, List.mem_cons_of_mem _ hj, hd⟩)

theorem WellFormed.isOpen_of_mem_voidCalls (h : WellFormed items) :
    ∀ i ∈ items, ∀ q ∈ i.callsOf (Program.voidNames items), q.isOpen = true := by
  obtain ⟨Γ, hΓ⟩ := id h
  refine Item.callsOf_of_itemsOk hΓ ?_ fun d hd hmem => (h.isVoid_iff hd).mpr hmem
  exact List.forall_mem_singleton.mpr (List.forall_mem_nil _)

end OcCompiler
