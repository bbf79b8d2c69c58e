import OcCompiler.Proofs.TopLevelNames
import OcCompiler.Proofs.VoidOperands

/-! String constants. Each different one that occurs in a program has a register of its own from the start, which stands
    for it wherever its value is used; its spelling is never part of an instruction. -/

namespace OcCompiler

open Oil

/-! ### The string constants of a program -/

namespace Expr

mutual

/-- The string constants in an expression as they are spelled, in source order. -/
def strings : Expr → List String
  | .name _ | .newStruct .. => []
  | .constant q lexeme => if q = .literal .string then [lexeme.text] else []
  | .unary _ _ e => e.strings
  | .binary _ left _ right => left.strings ++ right.strings
  | .call _ _ args => stringsAll args
  | .index base _ subscript => base.strings ++ subscript.strings
  | .select object _ _ => object.strings
  | .newString _ count => count.strings
  | .newArray _ _ count => count.strings

def stringsAll : List Expr → List String
  | [] => []
  | e :: es => e.strings ++ stringsAll es

end

/-- The string constants in an expression whose value is not used. A constant on its own does nothing. -/
def effectiveStrings (e : Expr) : List String :=
  match e with
  | .constant .. => []
  | _ => e.strings

end Expr

namespace Stmt

mutual

/-- The string constants in a statement, where `alone` gives those in an expression that is a statement. -/
def strings (alone : Expr → List String) : Stmt → List String
  | .block _ body => stringsAll alone body
  | .empty _ | .returnVoid _ => []
  | .varDecl _ _ init => init.strings
  | .whileLoop _ cond body => cond.strings ++ body.strings alone
  | .ifThen _ cond yes => cond.strings ++ yes.strings alone
  | .ifElse _ cond yes no => cond.strings ++ (yes.strings alone ++ no.strings alone)
  | .returnValue _ value => value.strings
  | .expr e => alone e

def stringsAll (alone : Expr → List String) : List Stmt → List String
  | [] => []
  | s :: ss => s.strings alone ++ stringsAll alone ss

end

end Stmt

def Item.strings : Item → List String
  | .function _ _ _ _ body => Stmt.stringsAll Expr.strings body
  | .stmt s => s.strings Expr.strings
  | .struct .. | .prototype .. => []

def Program.strings (items : List Item) : List String := items.flatMap Item.strings

section Queue

open Analysis

variable {t : Tree}

namespace Analysis

def foundStrings (t : Tree) (a : Analysis) : List String := a.queues.strings.toList.map t.text

variable (a : Analysis) (n : NodeId)

theorem foundStrings_of_queues {a b : Analysis} (h : b.queues.strings = a.queues.strings) :
    b.foundStrings t = a.foundStrings t := by
  rw [foundStrings, h, foundStrings]

@[simp] theorem foundStrings_place (tag : Tag) : (a.place n tag).foundStrings t = a.foundStrings t :=
  foundStrings_of_queues (by rw [queues_place])

@[simp] theorem foundStrings_refer (x : Lexeme) : (a.refer n x).foundStrings t = a.foundStrings t :=
  foundStrings_of_queues (by rw [queues_refer])

@[simp] theorem foundStrings_apply (v : Verdict) : (a.apply n v).foundStrings t = a.foundStrings t :=
  foundStrings_of_queues (by rw [queues_apply])

@[simp] theorem foundStrings_useStruct (tag : Lexeme) (mayLackFields : Bool) :
    (a.useStruct n tag mayLackFields).foundStrings t = a.foundStrings t := foundStrings_of_queues (by rw [queues_useStruct])

@[simp] theorem foundStrings_setAttrs (attrs : Attributes) : (a.setAttrs n attrs).foundStrings t = a.foundStrings t := rfl

@[simp] theorem foundStrings_markField : (a.markField n).foundStrings t = a.foundStrings t := rfl

@[simp] theorem foundStrings_define (d : Declaration) (roles : Roles) :
    (a.define d roles).2.foundStrings t = a.foundStrings t := foundStrings_of_queues (by rw [queues_define])

@[simp] theorem foundStrings_queueGlobal : (a.queueGlobal n).foundStrings t = a.foundStrings t := by
  unfold queueGlobal
  split <;> rfl

end Analysis

@[simp] theorem Decl.foundStrings_place (d : Decl) (k : Nat) (tag : Tag) (a : Analysis) :
    (d.place k tag a).foundStrings t = a.foundStrings t := foundStrings_of_queues (by rw [queues_place])

mutual

theorem Expr.foundStrings_analyze (e : Expr) {p : Option NodeId} {k : Nat} (h : t.Shows p k e.sapling) (a : Analysis) :
    (e.analyze k a).foundStrings t = a.foundStrings t ++ e.strings := by
  cases e with
  | name x => simp [analyze, strings]
  | constant q lexeme =>
    have hnode := Sapling.shows_leaf.mp h
    rw [analyze, strings]
    dsimp only
    split
    · simp [foundStrings, Tree.text, Tree.lexeme, hnode]
    · simp
  | unary op mark e => simp [analyze, strings, Expr.foundStrings_analyze e (Expr.shows_unary.mp h).2]
  | binary op left mark right =>
    obtain ⟨-, hleft, hright⟩ := Expr.shows_binary.mp h
    simp [analyze, strings, Expr.foundStrings_analyze left hleft, Expr.foundStrings_analyze right hright]
  | call callee paren args =>
    obtain ⟨-, -, hargs⟩ := Expr.shows_call.mp h
    simp [analyze, strings, Expr.foundStrings_analyzeAll args hargs]
  | index base bracket subscript =>
    obtain ⟨-, hbase, hsubscript⟩ := Expr.shows_index.mp h
    simp [analyze, strings, Expr.foundStrings_analyze base hbase, Expr.foundStrings_analyze subscript hsubscript]
  | select object dot field =>
    simp [analyze, strings, Expr.foundStrings_analyze object (Expr.shows_select.mp h).2.1]
  | newStruct mark tag => simp [analyze, strings]
  | newString mark count => simp [analyze, strings, Expr.foundStrings_analyze count (Expr.shows_newString.mp h).2]
  | newArray element mark count =>
    have hcount := Expr.foundStrings_analyze count (Expr.shows_newArray.mp h).2.2
    cases element <;> simp [analyze, strings, hcount]

theorem Expr.foundStrings_analyzeAll (es : List Expr) {p : Option NodeId} {k : Nat} (h : t.ShowsAll p k (saplings es))
    (a : Analysis) : (analyzeAll k es a).foundStrings t = a.foundStrings t ++ stringsAll es := by
  match es, h with
  | [], _ => simp [analyzeAll, stringsAll]
  | e :: es, ⟨he, hes⟩ =>
    have hfirst := Expr.foundStrings_analyze e he a
    have hrest := Expr.foundStrings_analyzeAll es hes (e.analyze k a)
    rw [analyzeAll, stringsAll, ← List.append_assoc, ← hfirst]
    exact hrest

end

mutual

theorem Stmt.foundStrings_analyze (s : Stmt) {p : Option NodeId} {k : Nat} (h : t.Shows p k s.sapling) (a : Analysis) :
    (s.analyze k a).foundStrings t = a.foundStrings t ++ s.strings Expr.strings := by
  cases s with
  | block brace body =>
    rw [analyze, strings]
    exact Stmt.foundStrings_analyzeAll body (Stmt.shows_block.mp h).2 (a.enterBlock.2.setBlock ⟨k⟩ a.enterBlock.1)
  | empty semicolon => simp [analyze, strings]
  | varDecl d equals init => simp [analyze, strings, init.foundStrings_analyze (Stmt.shows_varDecl.mp h).2.2]
  | whileLoop mark cond body =>
    obtain ⟨-, hcond, hbody⟩ := Stmt.shows_whileLoop.mp h
    simp [analyze, strings, cond.foundStrings_analyze hcond, Stmt.foundStrings_analyze body hbody]
  | ifThen mark cond yes =>
    obtain ⟨-, hcond, hyes⟩ := Stmt.shows_ifThen.mp h
    simp [analyze, strings, cond.foundStrings_analyze hcond, Stmt.foundStrings_analyze yes hyes]
  | ifElse mark cond yes no =>
    obtain ⟨-, hcond, hyes, hno⟩ := Stmt.shows_ifElse.mp h
    simp [analyze, strings, cond.foundStrings_analyze hcond, Stmt.foundStrings_analyze yes hyes,
      Stmt.foundStrings_analyze no hno]
  | returnValue mark value => simp [analyze, strings, value.foundStrings_analyze (Stmt.shows_returnValue.mp h).2]
  | returnVoid mark => simp [analyze, strings]
  | expr e =>
    rw [analyze, strings]
    exact e.foundStrings_analyze h a

theorem Stmt.foundStrings_analyzeAll (ss : List Stmt) {p : Option NodeId} {k : Nat} (h : t.ShowsAll p k (saplings ss))
    (a : Analysis) : (analyzeAll k ss a).foundStrings t = a.foundStrings t ++ stringsAll Expr.strings ss := by
  match ss, h with
  | [], _ => simp [analyzeAll, stringsAll]
  | s :: ss, ⟨hs, hss⟩ =>
    have hfirst := Stmt.foundStrings_analyze s hs a
    have hrest := Stmt.foundStrings_analyzeAll ss hss (s.analyze k a)
    rw [analyzeAll, stringsAll, ← List.append_assoc, ← hfirst]
    exact hrest

end

theorem Item.foundStrings_analyze (i : Item) {p : Option NodeId} {k : Nat} (h : t.Shows p k i.sapling) (a : Analysis) :
    (i.analyze k a).foundStrings t = a.foundStrings t ++ i.strings := by
  cases i with
  | struct mark tag fields =>
    rw [analyze, strings, List.append_nil]
    refine foundStrings_of_queues ?_
    rw [Decl.queues_placeAll, queues_place]
    rcases (a.place ⟨k⟩ .struct).queues_defineStructAs ⟨k⟩ ⟨k + 1⟩ tag (Decl.declarations (k + 2) fields) with hq | hq
    · rw [hq, queues_place]
    · rw [hq, queues_place]
  | function d paren params brace body =>
    obtain ⟨-, -, -, hblock⟩ := (shows_function rfl rfl rfl).mp h
    rw [analyze_function, strings, leaveBody, foundStrings_apply]
    refine (Stmt.foundStrings_analyzeAll body (Stmt.shows_block.mp hblock).2 _).trans ?_
    congr 1
    refine foundStrings_of_queues ?_
    rw [queues_enterBody]
    simp
  | prototype d paren params semicolon =>
    rw [analyze, strings, List.append_nil]
    refine foundStrings_of_queues ?_
    simp [exitBlock, setSymbols]
  | stmt s => exact s.foundStrings_analyze h a

theorem Item.foundStrings_analyzeAll {is : List Item} {p : Option NodeId} {k : Nat} (h : t.ShowsAll p k (is.map sapling))
    (a : Analysis) : (analyzeAll k is a).foundStrings t = a.foundStrings t ++ is.flatMap strings := by
  induction is generalizing k a with
  | nil => simp [analyzeAll]
  | cons i is ih =>
    obtain ⟨hi, his⟩ := h
    rw [analyzeAll, List.flatMap_cons, ← List.append_assoc, ← i.foundStrings_analyze hi a]
    exact ih his _

end Queue

namespace Oil

def StringSlot.numbered (next : Nat) (spellings : List String) : List StringSlot :=
  (spellings.zipIdx next).map fun p => ⟨⟨.string, p.2⟩, p.1⟩

theorem stringSlots_eq_numbered {found slots : List StringSlot} {spellings : List String} {next next' : Nat}
    (h : stringSlots found spellings next = .ok (slots, next')) :
    slots = found ++ StringSlot.numbered next (spellings.filter fun x => !found.any (·.spelling == x)).eraseDups := by
  induction spellings generalizing found next with
  | nil =>
    cases h
    simp [StringSlot.numbered]
  | cons x spellings ih =>
    rw [stringSlots] at h
    split at h
    · rename_i hfound
      rw [ih h, List.filter_cons_of_neg (by simp [hfound])]
    · rename_i hfound
      obtain ⟨following, hfollowing, h⟩ := bind_eq_ok_iff.mp h
      obtain ⟨-, rfl⟩ := countUp_eq_ok_iff.mp hfollowing
      have hrest : spellings.filter (fun y => !(found ++ [(⟨⟨.string, next⟩, x⟩ : StringSlot)]).any (·.spelling == y)) =
          (spellings.filter fun y => !found.any (·.spelling == y)).filter fun y => !y == x := by
        rw [List.filter_filter]
        refine List.filter_congr fun y _ => ?_
        rw [List.any_append, Bool.not_or, List.any_cons, List.any_nil, Bool.or_false, Bool.and_comm, BEq.comm]
      rw [ih h, List.filter_cons_of_pos (by simpa using hfound), List.eraseDups_cons, ← hrest, List.append_assoc]
      rfl

/-- The string constant that an operand spells out, if it does. -/
def Operand.strings : Operand → List String
  | .constant (.literal .string) spelling => [spelling]
  | _ => []

def stringsIn (code : List Instruction) : List String := code.flatMap fun i => i.operands.flatMap Operand.strings

@[simp] theorem Operand.strings_var (v : Variable) : (Operand.var v).strings = [] := rfl

@[simp] theorem Operand.strings_pointee (r : Register) : (Operand.pointee r).strings = [] := rfl

@[simp] theorem Operand.strings_nothing : Operand.nothing.strings = [] := rfl

@[simp] theorem Operand.strings_register (r : Register) : (Operand.register r).strings = [] := rfl

@[simp] theorem stringsIn_nil : stringsIn [] = [] := rfl

@[simp] theorem stringsIn_cons (i : Instruction) (code : List Instruction) :
    stringsIn (i :: code) = i.operands.flatMap Operand.strings ++ stringsIn code := rfl

@[simp] theorem stringsIn_append (code code' : List Instruction) :
    stringsIn (code ++ code') = stringsIn code ++ stringsIn code' := List.flatMap_append

def Context.spelling (c : Context) : Context := { c with slots := [] }

end Oil

section Operands

variable {c : Context} {k next : Nat}

def Expr.string? : Expr → Option String
  | .constant q lexeme => if q = .literal .string then some lexeme.text else none
  | _ => none

theorem Expr.strings_value (e : Expr) {k next : Nat} {Γ : Env} {τ : ValueType} {l : Bool} (ht : HasType Γ e τ l) :
    (e.emitted c.spelling k next).value.strings = e.string?.toList := by
  cases e with
  | name | unary | index | select | newStruct | newString | newArray => rfl
  | constant q lexeme =>
    rw [emitted, string?]
    split
    · rename_i hq
      subst hq
      rfl
    · rename_i hq
      cases q with
      | literal q =>
        cases q with
        | string => exact absurd rfl hq
        | int | char => rfl
      | truth b => cases b <;> rfl
      | null => rfl
  | binary op left mark right =>
    cases ht with
    | assign hleft => exact (Expr.strings_value left hleft).trans (by cases hleft <;> rfl)
    | equality | order | arith => rfl
  | call =>
    rw [emitted]
    split <;> rfl

mutual

theorem Expr.count_strings (e : Expr) (k next : Nat) {Γ : Env} {τ : ValueType} {l : Bool} (ht : HasType Γ e τ l) (w : String) :
    (stringsIn (e.emitted c.spelling k next).code).count w + (e.emitted c.spelling k next).value.strings.count w =
      e.strings.count w := by
  cases e with
  | name x => simp [emitted, strings]
  | constant q lexeme =>
    rw [Expr.strings_value _ ht, string?, strings]
    split <;> simp [emitted]
  | newStruct =>
    have hone : (Operand.constant (.literal .int) "1").strings = [] := rfl
    simp [emitted, strings, Instruction.operands, Computation.operands, hone]
  | unary _ _ e | select e | newString _ e | newArray _ _ e =>
    obtain ⟨σ, l', he⟩ : ∃ σ l', HasType Γ e σ l' := by
      cases ht
      exact ⟨_, _, ‹HasType Γ e _ _›⟩
    simpa [emitted, strings, Instruction.operands, Computation.operands, Place.operands] using
      Expr.count_strings e _ next he w
  | binary op left mark right =>
    have hleft {τ : ValueType} {l : Bool} (h : HasType Γ left τ l) := Expr.count_strings left k next h w
    have hright {τ : ValueType} {l : Bool} (h : HasType Γ right τ l) :=
      Expr.count_strings right (k + left.size + 1) (left.emitted c.spelling k next).next h w
    cases ht with
    | assign hplace hvalue =>
      have htarget : (left.emitted c.spelling k next).value.strings = [] := by
        rw [Expr.strings_value left hplace]
        cases hplace <;> rfl
      simp [emitted, strings, Instruction.operands, htarget, ← hleft hplace, ← hright hvalue]
    | equality _ hx hy | order _ hx hy | arith hx hy =>
      simp [emitted, strings, Instruction.operands, Computation.operands, ← hleft hx, ← hright hy]
      omega
  | call callee paren args =>
    cases ht with
    | call _ hargs =>
      rw [emitted]
      split <;> simpa [strings, Instruction.operands, Computation.operands] using Expr.count_stringsAll args _ next hargs w
  | index base bracket subscript =>
    cases ht with
    | element hbase hsubscript | character hbase hsubscript =>
      simp [emitted, strings, Instruction.operands, Place.operands, ← Expr.count_strings base k next hbase w,
        ← Expr.count_strings subscript (k + base.size + 1) (base.emitted c.spelling k next).next hsubscript w]
      omega

theorem Expr.count_stringsAll (es : List Expr) (k next : Nat) {Γ : Env} {τs : List ValueType} (ht : HasTypes Γ es τs)
    (w : String) :
    (stringsIn (emittedAll c.spelling k next es).code).count w +
      ((emittedAll c.spelling k next es).value.flatMap Operand.strings).count w = (stringsAll es).count w := by
  match es, ht with
  | [], .nil => simp [emittedAll, stringsAll]
  | e :: es, .cons he hes =>
    have ih := Expr.count_strings e k next he w
    have ihs := Expr.count_stringsAll es (k + e.size) (e.emitted c.spelling k next).next hes w
    simp [emittedAll, stringsAll, ← ih, ← ihs]
    omega

end

theorem Expr.count_effectiveStrings (e : Expr) (k next : Nat) {Γ : Env} {τ : ValueType} {l : Bool} (ht : HasType Γ e τ l)
    (w : String) : (stringsIn (e.emitted c.spelling k next).code).count w = e.effectiveStrings.count w := by
  have hcount := e.count_strings (c := c) k next ht w
  rw [e.strings_value ht] at hcount
  cases e with
  | constant => rfl
  | _ => exact hcount

mutual

theorem Stmt.count_strings (s : Stmt) (k next : Nat) {ρ : Option ValueType} {Γ Γ' : Env} (hs : StmtOk ρ Γ s Γ') (w : String) :
    (stringsIn (s.emitted c.spelling k next).code).count w = (s.strings Expr.effectiveStrings).count w := by
  have hexpr (e : Expr) (k next : Nat) {τ : ValueType} {l : Bool} (h : HasType Γ e τ l) := e.count_strings (c := c) k next h w
  cases hs with
  | block hbody => exact Stmt.count_stringsAll _ _ _ hbody w
  | empty | returnVoid => rfl
  | @varDecl _ d _ init _ _ hinit =>
    simp only [emitted, strings]
    split <;> simp [Instruction.operands, ← hexpr init (k + d.size + 1) next hinit]
  | @whileLoop _ _ _ cond body _ hcond hbody | @ifThen _ _ _ cond body _ hcond hbody =>
    simp [emitted, strings, Instruction.operands, ← hexpr cond (k + 1) next hcond, Stmt.count_strings body _ _ hbody w,
      Nat.add_assoc]
  | @ifElse _ _ _ _ cond yes no _ hcond hyes hno =>
    simp [emitted, strings, Instruction.operands, ← hexpr cond (k + 1) next hcond, Stmt.count_strings yes _ _ hyes w,
      Stmt.count_strings no _ _ hno w, Nat.add_assoc]
  | returnValue hvalue => simpa [emitted, strings, Instruction.operands] using hexpr _ (k + 1) next hvalue
  | expr he => exact Expr.count_effectiveStrings _ _ _ he w

theorem Stmt.count_stringsAll (ss : List Stmt) (k next : Nat) {ρ : Option ValueType} {Γ Γ' : Env} (hs : StmtsOk ρ Γ ss Γ')
    (w : String) :
    (stringsIn (emittedAll c.spelling k next ss).code).count w = (stringsAll Expr.effectiveStrings ss).count w := by
  match ss, hs with
  | [], .nil => rfl
  | s :: ss, .cons hs hss =>
    simp [emittedAll, stringsAll, Stmt.count_strings s k next hs w,
      Stmt.count_stringsAll ss (k + s.size) (s.emitted c.spelling k next).next hss w]

end

end Operands

end OcCompiler
