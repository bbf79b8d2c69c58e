import Mathlib
import OcCompiler.Proofs.ItemTyping
import OcCompiler.Proofs.UnplacedAnalysis

/-! The order of the operands of an equality. A reference may be compared with `null` but `null` not with a reference,
    and this is the only way in which the order matters. -/

namespace OcCompiler

/-! ### Programs with exchanged operands -/

def Expr.isNull : Expr → Bool
  | .constant .null _ => true
  | _ => false

def BinaryOp.isEquality : BinaryOp → Bool
  | .compare c => c.isEquality
  | _ => false

mutual

/-- The operands of the equalities whose operators are picked out are exchanged, unless just one of them is `null`. -/
def Expr.exchange (p : Lexeme → Bool) : Expr → Expr
  | .name x => .name x
  | .constant c x => .constant c x
  | .unary op mark e => .unary op mark (e.exchange p)
  | .binary op l mark r =>
    if p mark && op.isEquality && l.isNull == r.isNull then .binary op (r.exchange p) mark (l.exchange p)
    else .binary op (l.exchange p) mark (r.exchange p)
  | .call f paren es => .call f paren (exchangeAll p es)
  | .index e bracket s => .index (e.exchange p) bracket (s.exchange p)
  | .select e dot f => .select (e.exchange p) dot f
  | .newStruct mark tag => .newStruct mark tag
  | .newString mark e => .newString mark (e.exchange p)
  | .newArray τ mark e => .newArray τ mark (e.exchange p)

def Expr.exchangeAll (p : Lexeme → Bool) : List Expr → List Expr
  | [] => []
  | e :: es => e.exchange p :: exchangeAll p es

end

mutual

def Stmt.exchange (p : Lexeme → Bool) : Stmt → Stmt
  | .block brace ss => .block brace (exchangeAll p ss)
  | .empty semicolon => .empty semicolon
  | .varDecl d equals e => .varDecl d equals (e.exchange p)
  | .whileLoop mark e s => .whileLoop mark (e.exchange p) (s.exchange p)
  | .ifThen mark e s => .ifThen mark (e.exchange p) (s.exchange p)
  | .ifElse mark e s u => .ifElse mark (e.exchange p) (s.exchange p) (u.exchange p)
  | .returnValue mark e => .returnValue mark (e.exchange p)
  | .returnVoid mark => .returnVoid mark
  | .expr e => .expr (e.exchange p)

def Stmt.exchangeAll (p : Lexeme → Bool) : List Stmt → List Stmt
  | [] => []
  | s :: ss => s.exchange p :: exchangeAll p ss

end

def Item.exchange (p : Lexeme → Bool) : Item → Item
  | .function d paren params brace body => .function d paren params brace (Stmt.exchangeAll p body)
  | .stmt s => .stmt (s.exchange p)
  | i => i

/-- The second program is the first one with operands of some equalities exchanged, wherever the two stand in their texts.
    The places in `marked` only serve to pick out equalities. -/
def Program.Exchanged (items items' : List Item) : Prop :=
  ∃ (marked : List Item) (p : Lexeme → Bool), marked.map Item.unplaced = items.map Item.unplaced ∧
    (marked.map (Item.exchange p)).map Item.unplaced = items'.map Item.unplaced

variable {Γ Γ' : Env} {ρ : Option ValueType} {τ : ValueType} {place : Bool} {p : Lexeme → Bool}

@[simp] theorem Expr.isNull_exchange (e : Expr) : (e.exchange p).isNull = e.isNull := by
  cases e with
  | binary =>
    rw [exchange]
    split <;> rfl
  | _ => rw [exchange] <;> rfl

mutual

theorem Expr.exchange_exchange (e : Expr) : (e.exchange p).exchange p = e := by
  cases e with
  | name | constant | newStruct => rw [exchange, exchange]
  | binary op l mark r =>
    rw [exchange]
    split
    · rename_i h
      rw [exchange, isNull_exchange, isNull_exchange, BEq.comm, if_pos h, exchange_exchange l, exchange_exchange r]
    · rename_i h
      rw [exchange, isNull_exchange, isNull_exchange, if_neg h, exchange_exchange l, exchange_exchange r]
  | unary op mark e | select e | newString mark e | newArray τ mark e => rw [exchange, exchange, exchange_exchange e]
  | call f paren es => rw [exchange, exchange, exchangeAll_exchangeAll es]
  | index e bracket s => rw [exchange, exchange, exchange_exchange e, exchange_exchange s]

theorem Expr.exchangeAll_exchangeAll (es : List Expr) : exchangeAll p (exchangeAll p es) = es := by
  match es with
  | [] => rw [exchangeAll, exchangeAll]
  | e :: es => rw [exchangeAll, exchangeAll, exchange_exchange e, exchangeAll_exchangeAll es]

end

mutual

theorem Stmt.exchange_exchange (s : Stmt) : (s.exchange p).exchange p = s := by
  cases s with
  | block brace ss => rw [exchange, exchange, exchangeAll_exchangeAll ss]
  | empty | returnVoid => rw [exchange, exchange]
  | varDecl d equals e | returnValue mark e | expr e => rw [exchange, exchange, e.exchange_exchange]
  | whileLoop mark e s | ifThen mark e s => rw [exchange, exchange, e.exchange_exchange, exchange_exchange s]
  | ifElse mark e s u =>
    rw [exchange, exchange, e.exchange_exchange, exchange_exchange s, exchange_exchange u]

theorem Stmt.exchangeAll_exchangeAll (ss : List Stmt) : exchangeAll p (exchangeAll p ss) = ss := by
  match ss with
  | [] => rw [exchangeAll, exchangeAll]
  | s :: ss => rw [exchangeAll, exchangeAll, exchange_exchange s, exchangeAll_exchangeAll ss]

end

theorem Item.exchange_exchange (i : Item) : (i.exchange p).exchange p = i := by
  cases i with
  | function d paren params brace body => rw [exchange, exchange, Stmt.exchangeAll_exchangeAll]
  | stmt s => rw [exchange, exchange, s.exchange_exchange]
  | _ => rfl

def Entry.NotNull : Entry → Prop
  | .var τ => τ ≠ .null
  | .function sig _ => sig.result ≠ .null

/-- Nothing is declared to be of the type of `null`, which has no name. -/
structure Env.NotNull (Γ : Env) : Prop where
  entries : ∀ frame ∈ Γ.inner :: Γ.outer, ∀ p ∈ frame, p.2.NotNull
  fields : ∀ s ∈ Γ.structs, ∀ f ∈ s.2, f.2 ≠ .null

theorem Decl.type_ne_null (d : Decl) : d.type ≠ .null := by
  unfold type
  split <;> nofun

namespace Env.NotNull

theorem lookup (h : Γ.NotNull) {x : String} {entry : Entry} (hx : Γ.lookup x = some entry) : entry.NotNull := by
  obtain ⟨frame, hframe, hx⟩ := List.exists_of_findSome?_eq_some hx
  exact h.entries frame hframe (x, entry) (SymbolTable.mem_of_lookup hx)

theorem bind (h : Γ.NotNull) {x : String} {entry : Entry} (hentry : entry.NotNull) : (Γ.bind x entry).NotNull := by
  obtain ⟨hinner, houter⟩ := List.forall_mem_cons.mp h.entries
  refine ⟨List.forall_mem_cons.mpr ⟨List.forall_mem_append.mpr ⟨hinner, ?_⟩, houter⟩, h.fields⟩
  exact List.forall_mem_singleton.mpr hentry

theorem enter (h : Γ.NotNull) {frame : Frame} (hframe : ∀ p ∈ frame, p.2.NotNull) : (Γ.enter frame).NotNull :=
  ⟨List.forall_mem_cons.mpr ⟨hframe, h.entries⟩, h.fields⟩

theorem define (h : Γ.NotNull) (f : String) : (Γ.define f).NotNull := by
  obtain ⟨hinner, houter⟩ := List.forall_mem_cons.mp h.entries
  refine ⟨List.forall_mem_cons.mpr ⟨List.forall_mem_map.mpr fun p hp => ?_, houter⟩, h.fields⟩
  obtain ⟨x, σ | ⟨sig, announced⟩⟩ := p
  · exact hinner (x, .var σ) hp
  · exact hinner (x, .function sig announced) hp

theorem field (h : Γ.NotNull) {tag x : String} {fields : List (String × ValueType)} (hfields : Γ.fields? tag = some fields)
    (hx : fields.lookup x = some τ) : τ ≠ .null :=
  h.fields _ (SymbolTable.mem_of_lookup hfields) _ (SymbolTable.mem_of_lookup hx)

theorem stmt {Γ Γ' : Env} (h : Γ.NotNull) {s : Stmt} (hs : StmtOk ρ Γ s Γ') : Γ'.NotNull := by
  cases hs with
  | varDecl => exact h.bind (Decl.type_ne_null _)
  | whileLoop _ hs | ifThen _ hs => exact h.stmt hs
  | ifElse _ hs hu => exact (h.stmt hs).stmt hu
  | _ => exact h

theorem item (h : Γ.NotNull) {i : Item} (hi : ItemOk Γ i Γ') : Γ'.NotNull := by
  cases hi with
  | struct =>
    refine ⟨h.entries, List.forall_mem_append.mpr ⟨h.fields, List.forall_mem_singleton.mpr ?_⟩⟩
    exact List.forall_mem_map.mpr fun d _ => d.type_ne_null
  | prototype | function => exact h.bind (Decl.type_ne_null _)
  | announced => exact h.define _
  | stmt hs => exact h.stmt hs

end Env.NotNull

namespace HasType

theorem ne_null_of_place {e : Expr} (h : HasType Γ e τ true) (hΓ : Γ.NotNull) : τ ≠ .null := by
  cases h with
  | var hx => exact hΓ.lookup hx
  | element | character => nofun
  | select _ hfields hfield => exact hΓ.field hfields hfield

/-- Only `null` itself has its type. -/
theorem isNull_iff {e : Expr} (h : HasType Γ e τ place) (hΓ : Γ.NotNull) : e.isNull = true ↔ τ = .null := by
  cases h with
  | var hx | functionName hx | call hx => exact iff_of_false nofun (hΓ.lookup hx)
  | @constant c => rcases c with l | b | _ <;> [cases l; skip; skip] <;> simp [Expr.isNull, Constant.type]
  | @unary op => exact iff_of_false nofun (by cases op <;> nofun)
  | assign hleft => exact iff_of_false nofun (hleft.ne_null_of_place hΓ)
  | select _ hfields hfield => exact iff_of_false nofun (hΓ.field hfields hfield)
  | _ => exact iff_of_false nofun nofun

end HasType

/-! ### Types with exchanged operands -/

mutual

theorem HasType.exchange (hΓ : Γ.NotNull) (e : Expr) {τ : ValueType} {place : Bool} (h : HasType Γ e τ place) :
    HasType Γ (e.exchange p) τ place := by
  cases e with
  | name | constant | newStruct => rwa [Expr.exchange]
  | unary op mark e =>
    rw [Expr.exchange]
    cases h with | unary h => exact .unary (exchange hΓ e h)
  | binary op l mark r =>
    rw [Expr.exchange]
    split
    · rename_i hpick
      simp only [Bool.and_eq_true, beq_iff_eq] at hpick
      cases h with
      | equality hc hleft hright hvoid hfits =>
        -- The types are equal: if one is that of `null`, so is the other.
        rcases ValueType.accepts_iff.mp hfits with rfl | ⟨-, rfl⟩
        · exact .equality hc (exchange hΓ r hright) (exchange hΓ l hleft) hvoid.symm (ValueType.accepts_self _)
        · obtain rfl := (hleft.isNull_iff hΓ).mp (hpick.2.trans ((hright.isNull_iff hΓ).mpr rfl))
          exact .equality hc (exchange hΓ r hright) (exchange hΓ l hleft) hvoid.symm (ValueType.accepts_self _)
      | order hc => cases hc.symm.trans hpick.1.2
      | assign | arith => cases hpick.1.2
    · cases h with
      | assign hleft hright hfits => exact .assign (exchange hΓ l hleft) (exchange hΓ r hright) hfits
      | equality hc hleft hright hvoid hfits =>
        exact .equality hc (exchange hΓ l hleft) (exchange hΓ r hright) hvoid hfits
      | order hc hleft hright hordered => exact .order hc (exchange hΓ l hleft) (exchange hΓ r hright) hordered
      | arith hleft hright => exact .arith (exchange hΓ l hleft) (exchange hΓ r hright)
  | call f paren es =>
    rw [Expr.exchange]
    cases h with | call hf hargs hfits => exact .call hf (exchangeAll hΓ es hargs) hfits
  | index e bracket s =>
    rw [Expr.exchange]
    cases h with
    | element hbase hs => exact .element (exchange hΓ e hbase) (exchange hΓ s hs)
    | character hbase hs => exact .character (exchange hΓ e hbase) (exchange hΓ s hs)
  | select e dot f =>
    rw [Expr.exchange]
    cases h with | select hobject hfields hfield => exact .select (exchange hΓ e hobject) hfields hfield
  | newString mark e =>
    rw [Expr.exchange]
    cases h with | newString h => exact .newString (exchange hΓ e h)
  | newArray τ mark e =>
    rw [Expr.exchange]
    cases h with | newArray hcomplete hvoid h => exact .newArray hcomplete hvoid (exchange hΓ e h)

theorem HasType.exchangeAll (hΓ : Γ.NotNull) (es : List Expr) {τs : List ValueType} (h : HasTypes Γ es τs) :
    HasTypes Γ (Expr.exchangeAll p es) τs := by
  match es with
  | [] => rwa [Expr.exchangeAll]
  | e :: es =>
    rw [Expr.exchangeAll]
    cases h with | cons h hs => exact .cons (exchange hΓ e h) (exchangeAll hΓ es hs)

end

mutual

theorem Stmt.hasReturn_exchange (s : Stmt) : (s.exchange p).hasReturn = s.hasReturn := by
  cases s with
  | block brace ss => rw [exchange, hasReturn, hasReturn, anyReturn_exchange ss]
  | whileLoop mark e s | ifThen mark e s => rw [exchange, hasReturn, hasReturn, hasReturn_exchange s]
  | ifElse mark e s u => rw [exchange, hasReturn, hasReturn, hasReturn_exchange s, hasReturn_exchange u]
  | _ => rw [exchange] <;> rfl

theorem Stmt.anyReturn_exchange (ss : List Stmt) : anyReturn (exchangeAll p ss) = anyReturn ss := by
  match ss with
  | [] => rw [exchangeAll]
  | s :: ss => rw [exchangeAll, anyReturn, anyReturn, hasReturn_exchange s, anyReturn_exchange ss]

end

mutual

theorem StmtOk.exchange {Γ Γ' : Env} (hΓ : Γ.NotNull) (s : Stmt) (h : StmtOk ρ Γ s Γ') : StmtOk ρ Γ (s.exchange p) Γ' := by
  cases s with
  | block brace ss =>
    rw [Stmt.exchange]
    cases h with | block h => exact .block (exchangeAll (hΓ.enter (List.forall_mem_nil _)) ss h)
  | empty | returnVoid => rwa [Stmt.exchange]
  | varDecl d equals e =>
    rw [Stmt.exchange]
    cases h with
    | varDecl hinit hcomplete hfree hvoid hfits => exact .varDecl (hinit.exchange hΓ) hcomplete hfree hvoid hfits
  | whileLoop mark e s =>
    rw [Stmt.exchange]
    cases h with | whileLoop hcond h => exact .whileLoop (hcond.exchange hΓ) (exchange hΓ s h)
  | ifThen mark e s =>
    rw [Stmt.exchange]
    cases h with | ifThen hcond h => exact .ifThen (hcond.exchange hΓ) (exchange hΓ s h)
  | ifElse mark e s u =>
    rw [Stmt.exchange]
    cases h with | ifElse hcond h hu => exact .ifElse (hcond.exchange hΓ) (exchange hΓ s h) (exchange (hΓ.stmt h) u hu)
  | returnValue mark e =>
    rw [Stmt.exchange]
    cases h with | returnValue h hfits => exact .returnValue (h.exchange hΓ) hfits
  | expr e =>
    rw [Stmt.exchange]
    cases h with | expr h => exact .expr (h.exchange hΓ)

theorem StmtOk.exchangeAll {Γ Γ' : Env} (hΓ : Γ.NotNull) (ss : List Stmt) (h : StmtsOk ρ Γ ss Γ') :
    StmtsOk ρ Γ (Stmt.exchangeAll p ss) Γ' := by
  match ss with
  | [] => rwa [Stmt.exchangeAll]
  | s :: ss =>
    rw [Stmt.exchangeAll]
    cases h with | cons h hs => exact .cons (exchange hΓ s h) (exchangeAll (hΓ.stmt h) ss hs)

end

theorem BodyOk.exchange {d : Decl} {params : List Decl} {body : List Stmt} (hΓ : Γ.NotNull) (h : BodyOk Γ d params body) :
    BodyOk Γ d params (Stmt.exchangeAll p body) := by
  obtain ⟨⟨Γ', hstmts⟩, hreturns⟩ := h
  refine ⟨⟨Γ', StmtOk.exchangeAll (hΓ.enter ?_) body hstmts⟩, ?_⟩
  · simp [Entry.NotNull, Decl.type_ne_null]
  · rwa [Stmt.anyReturn_exchange]

theorem ItemOk.exchange {i : Item} (hΓ : Γ.NotNull) (h : ItemOk Γ i Γ') : ItemOk Γ (i.exchange p) Γ' := by
  cases h with
  | struct hnew hdistinct hvoid => exact .struct hnew hdistinct hvoid
  | prototype hcomplete hfree hparams => exact .prototype hcomplete hfree hparams
  | function hcomplete hfree hparams hbody =>
    exact .function hcomplete hfree hparams (hbody.exchange (hΓ.bind (Decl.type_ne_null _)))
  | announced hcomplete hmatch hparams hbody => exact .announced hcomplete hmatch hparams (hbody.exchange (hΓ.define _))
  | stmt h => exact .stmt (h.exchange hΓ)

theorem ItemsOk.exchange {is : List Item} (hΓ : Γ.NotNull) (h : ItemsOk Γ is Γ') :
    ItemsOk Γ (is.map (Item.exchange p)) Γ' := by
  induction is generalizing Γ with
  | nil => exact h
  | cons i is ih => cases h with | cons h hs => exact .cons (h.exchange hΓ) (ih (hΓ.item h) hs)

namespace Program

variable {items items' : List Item}

theorem wellFormed_exchange_iff : WellFormed (items.map (Item.exchange p)) ↔ WellFormed items := by
  have hmp (items : List Item) : WellFormed items → WellFormed (items.map (Item.exchange p)) :=
    fun ⟨Γ, h⟩ => ⟨Γ, h.exchange ⟨by simp, nofun⟩⟩
  have htwice : (items.map (Item.exchange p)).map (Item.exchange p) = items := by
    simp [Function.comp_def, Item.exchange_exchange]
  exact ⟨fun h => htwice ▸ hmp _ h, hmp items⟩

/-- Being well formed does not depend on places. -/
theorem wellFormed_unplaced_iff : WellFormed (items.map Item.unplaced) ↔ WellFormed items := by
  have h := congrArg Analysis.log (unplaced_analyze items #[])
  rw [show Log.unplaced #[] = #[] from Array.map_empty] at h
  rw [← log_analyze_eq_iff _ #[], ← log_analyze_eq_iff _ #[]]
  constructor
  · intro hquiet
    exact Array.map_eq_empty_iff.mp (h.trans hquiet)
  · intro hquiet
    exact h.symm.trans (Array.map_eq_empty_iff.mpr hquiet)

end Program

/-- Exchanging the operands of equalities, unless just one of the two is `null`, neither makes nor removes complaints. -/
theorem Analysis.quiet_iff_of_exchanged {tokens tokens' : List Token} {n n' : NodeId} {t t' : Tree}
    (h : Tree.empty.parse tokens = (.ok n, t)) (h' : Tree.empty.parse tokens' = (.ok n', t'))
    (hex : Program.Exchanged (Program.ofTokens tokens).items (Program.ofTokens tokens').items) (log log' : Log) :
    ∃ a a', ofTree t log = .ok a ∧ ofTree t' log' = .ok a' ∧ (a.log = log ↔ a'.log = log') := by
  obtain ⟨marked, p, hmarked, hex⟩ := hex
  refine ⟨_, _, ofTree_parse h log, ofTree_parse h' log', ?_⟩
  rw [Program.log_analyze_eq_iff, Program.log_analyze_eq_iff, ← Program.wellFormed_unplaced_iff, ← hmarked,
    Program.wellFormed_unplaced_iff, ← Program.wellFormed_exchange_iff (p := p), ← Program.wellFormed_unplaced_iff, hex,
    Program.wellFormed_unplaced_iff]

/-- Two numbers are compared and `null` is compared with itself, once in each order. -/
theorem Analysis.quiet_iff_of_exchanged_nested :
    ∃ s s' n n' t t' a a', TokenStream.ofText "t" "bool b = (1 == 2) != (null == null);" = .ok s ∧
      TokenStream.ofText "t" "bool b = (null == null) != (2 == 1);" = .ok s' ∧
      Tree.empty.parse s.tokens = (.ok n, t) ∧ Tree.empty.parse s'.tokens = (.ok n', t') ∧
      Program.Exchanged (Program.ofTokens s.tokens).items (Program.ofTokens s'.tokens).items ∧
      ofTree t #[] = .ok a ∧ ofTree t' #[] = .ok a' ∧ a.log = #[] ∧ a'.log = #[] := by
  have hpass : passes "bool b = (1 == 2) != (null == null);" (fun _ a => a.log.isEmpty) = true := by decide +kernel
  have hread : Tree.passes "bool b = (null == null) != (2 == 1);" (fun _ _ => true) = true := by decide +kernel
  have hitems : (TokenStream.ofText "t" "bool b = (1 == 2) != (null == null);").toOption.map
      (fun s => ((Program.ofTokens s.tokens).items.map (Item.exchange fun _ => true)).map Item.unplaced) =
      (TokenStream.ofText "t" "bool b = (null == null) != (2 == 1);").toOption.map
        fun s => (Program.ofTokens s.tokens).items.map Item.unplaced := by
    cbv
  obtain ⟨s, n, t, a, hs, ht, ha, hquiet⟩ := exists_of_passes hpass
  obtain ⟨s', n', t', hs', ht', -⟩ := Tree.exists_of_passes hread
  rw [hs, hs'] at hitems
  have hex : Program.Exchanged (Program.ofTokens s.tokens).items (Program.ofTokens s'.tokens).items :=
    ⟨_, fun _ => true, rfl, Option.some.inj hitems⟩
  obtain ⟨b, b', hb, hb', hiff⟩ := quiet_iff_of_exchanged ht ht' hex #[] #[]
  cases hb.symm.trans ha
  have hlog := Array.isEmpty_iff.mp hquiet
  exact ⟨s, s', n, n', t, t', a, b', hs, hs', ht, ht', hex, ha, hb', hlog, hiff.mp hlog⟩

/-- Comparing a string with `null` is fine, and comparing `null` with the string is not. -/
theorem Analysis.null_before_reference_refused :
    (∃ s n t a, TokenStream.ofText "t" "string s = null; bool b = s == null;" = .ok s ∧
      Tree.empty.parse s.tokens = (.ok n, t) ∧ ofTree t #[] = .ok a ∧ a.log.isEmpty = true) ∧
    ∃ s n t a, TokenStream.ofText "t" "string s = null; bool b = null == s;" = .ok s ∧
      Tree.empty.parse s.tokens = (.ok n, t) ∧ ofTree t #[] = .ok a ∧ (!a.log.isEmpty) = true := by
  have hpass : passes "string s = null; bool b = s == null;" (fun _ a => a.log.isEmpty) = true := by decide +kernel
  have hpass' : passes "string s = null; bool b = null == s;" (fun _ a => !a.log.isEmpty) = true := by decide +kernel
  exact ⟨exists_of_passes hpass, exists_of_passes hpass'⟩

end OcCompiler
