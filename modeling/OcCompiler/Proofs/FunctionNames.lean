import OcCompiler.Proofs.VoidOperands

/-! Names of functions as values. Roles play no part when types are compared, so a function's name counts as a value of
    the type that the function gives back, except that nothing is assigned to it. -/

namespace OcCompiler

open NameStep

namespace Expr

mutual

/-- Leaves only the function's name of every call whose parenthesis is chosen. -/
def uncall (chosen : Lexeme → Bool) : Expr → Expr
  | .name x => .name x
  | .constant c lexeme => .constant c lexeme
  | .unary op mark e => .unary op mark (e.uncall chosen)
  | .binary op left mark right => .binary op (left.uncall chosen) mark (right.uncall chosen)
  | .call callee paren args => if chosen paren then .name callee else .call callee paren (uncallAll chosen args)
  | .index base bracket subscript => .index (base.uncall chosen) bracket (subscript.uncall chosen)
  | .select object dot field => .select (object.uncall chosen) dot field
  | .newStruct mark tag => .newStruct mark tag
  | .newString mark count => .newString mark (count.uncall chosen)
  | .newArray element mark count => .newArray element mark (count.uncall chosen)

def uncallAll (chosen : Lexeme → Bool) : List Expr → List Expr
  | [] => []
  | e :: es => e.uncall chosen :: uncallAll chosen es

end

end Expr

namespace Stmt

mutual

def uncall (chosen : Lexeme → Bool) : Stmt → Stmt
  | .block brace body => .block brace (uncallAll chosen body)
  | .empty semicolon => .empty semicolon
  | .varDecl d equals init => .varDecl d equals (init.uncall chosen)
  | .whileLoop mark cond body => .whileLoop mark (cond.uncall chosen) (body.uncall chosen)
  | .ifThen mark cond yes => .ifThen mark (cond.uncall chosen) (yes.uncall chosen)
  | .ifElse mark cond yes no => .ifElse mark (cond.uncall chosen) (yes.uncall chosen) (no.uncall chosen)
  | .returnValue mark value => .returnValue mark (value.uncall chosen)
  | .returnVoid mark => .returnVoid mark
  | .expr e => .expr (e.uncall chosen)

def uncallAll (chosen : Lexeme → Bool) : List Stmt → List Stmt
  | [] => []
  | s :: ss => s.uncall chosen :: uncallAll chosen ss

end

end Stmt

def Item.uncall (chosen : Lexeme → Bool) : Item → Item
  | .function d paren params brace body => .function d paren params brace (Stmt.uncallAll chosen body)
  | .stmt s => .stmt (s.uncall chosen)
  | i => i

/-! ### The name has the type of the call -/

variable {chosen : Lexeme → Bool} {tag : Tag} {k : Nat}

mutual

theorem HasType.uncall {Γ : Env} {e : Expr} {τ : ValueType} {l : Bool} (h : HasType Γ e τ l) :
    HasType Γ (e.uncall chosen) τ l := by
  cases h with
  | var h => exact .var h
  | functionName h => exact .functionName h
  | constant => exact .constant
  | unary h => exact .unary h.uncall
  | assign h h' hfits => exact .assign h.uncall h'.uncall hfits
  | equality hc h h' hvoid hfits => exact .equality hc h.uncall h'.uncall hvoid hfits
  | order hc h h' hordered => exact .order hc h.uncall h'.uncall hordered
  | arith h h' => exact .arith h.uncall h'.uncall
  | call h hargs hfits =>
    rw [Expr.uncall]
    split
    · exact .functionName h
    · exact .call h hargs.uncall hfits
  | element h h' => exact .element h.uncall h'.uncall
  | character h h' => exact .character h.uncall h'.uncall
  | select h hfields hfield => exact .select h.uncall hfields hfield
  | newStruct h => exact .newStruct h
  | newString h => exact .newString h.uncall
  | newArray hcomplete hvoid h => exact .newArray hcomplete hvoid h.uncall

theorem HasTypes.uncall {Γ : Env} {es : List Expr} {τs : List ValueType} (h : HasTypes Γ es τs) :
    HasTypes Γ (Expr.uncallAll chosen es) τs := by
  cases h with
  | nil => exact .nil
  | cons h hs => exact .cons h.uncall hs.uncall

end

mutual

theorem Stmt.hasReturn_uncall (s : Stmt) : (s.uncall chosen).hasReturn = s.hasReturn := by
  cases s with
  | block brace body => exact Stmt.anyReturn_uncall body
  | whileLoop mark cond body => exact Stmt.hasReturn_uncall body
  | ifThen mark cond yes => exact Stmt.hasReturn_uncall yes
  | ifElse mark cond yes no => exact congrArg₂ _ (Stmt.hasReturn_uncall yes) (Stmt.hasReturn_uncall no)
  | empty | varDecl | returnValue | returnVoid | expr => rfl

theorem Stmt.anyReturn_uncall (ss : List Stmt) : Stmt.anyReturn (Stmt.uncallAll chosen ss) = Stmt.anyReturn ss := by
  cases ss with
  | nil => rfl
  | cons s ss => exact congrArg₂ _ (Stmt.hasReturn_uncall s) (Stmt.anyReturn_uncall ss)

end

mutual

theorem StmtOk.uncall {ρ : Option ValueType} {Γ Γ' : Env} {s : Stmt} (h : StmtOk ρ Γ s Γ') :
    StmtOk ρ Γ (s.uncall chosen) Γ' := by
  cases h with
  | block h => exact .block h.uncall
  | empty => exact .empty
  | varDecl hinit hcomplete hfree hvoid hfits => exact .varDecl hinit.uncall hcomplete hfree hvoid hfits
  | whileLoop hcond hbody => exact .whileLoop hcond.uncall hbody.uncall
  | ifThen hcond hyes => exact .ifThen hcond.uncall hyes.uncall
  | ifElse hcond hyes hno => exact .ifElse hcond.uncall hyes.uncall hno.uncall
  | returnValue hvalue hfits => exact .returnValue hvalue.uncall hfits
  | returnVoid hvoid => exact .returnVoid hvoid
  | expr h => exact .expr h.uncall

theorem StmtsOk.uncall {ρ : Option ValueType} {Γ Γ' : Env} {ss : List Stmt} (h : StmtsOk ρ Γ ss Γ') :
    StmtsOk ρ Γ (Stmt.uncallAll chosen ss) Γ' := by
  cases h with
  | nil => exact .nil
  | cons h hs => exact .cons h.uncall hs.uncall

end

variable {Γ Γ' : Env}

theorem BodyOk.uncall {d : Decl} {params : List Decl} {body : List Stmt} (h : BodyOk Γ d params body) :
    BodyOk Γ d params (Stmt.uncallAll chosen body) where
  stmts := h.stmts.imp fun _ => .uncall
  returns := by rw [Stmt.anyReturn_uncall]; exact h.returns

theorem ItemOk.uncall {i : Item} (h : ItemOk Γ i Γ') : ItemOk Γ (i.uncall chosen) Γ' := by
  cases h with
  | struct hnew hdistinct hvoid => exact .struct hnew hdistinct hvoid
  | prototype hcomplete hfree hparams => exact .prototype hcomplete hfree hparams
  | function hcomplete hfree hparams hbody => exact .function hcomplete hfree hparams hbody.uncall
  | announced hcomplete hmatch hparams hbody => exact .announced hcomplete hmatch hparams hbody.uncall
  | stmt h => exact .stmt h.uncall

theorem ItemsOk.uncall {is : List Item} (h : ItemsOk Γ is Γ') : ItemsOk Γ (is.map (Item.uncall chosen)) Γ' := by
  induction h with
  | nil => exact .nil
  | cons h _ ih => exact .cons h.uncall ih

theorem Program.log_uncall {items : List Item} {log : Log} (h : (analyze items log).log = log) (chosen : Lexeme → Bool) :
    (analyze (items.map (Item.uncall chosen)) log).log = log := by
  rw [log_analyze_eq_iff] at h ⊢
  exact h.imp fun _ => .uncall

namespace Sapling

mutual

/-- The first child of every assignment in a sapling that is planted from number `k` on has the property. -/
def Targets (P : NodeId → Prop) (k : Nat) : Sapling → Prop
  | .node tag _ before after =>
    (tag = .binary .assign → ∀ m, (tops k before ++ tops (k + sizes before + 1) after).head? = some m → P m) ∧
      TargetsAll P k before ∧ TargetsAll P (k + sizes before + 1) after
  | .spent _ => True

def TargetsAll (P : NodeId → Prop) (k : Nat) : List Sapling → Prop
  | [] => True
  | s :: ss => s.Targets P k ∧ TargetsAll P (k + s.size) ss

end

end Sapling

variable {P : NodeId → Prop}

mutual

theorem Tree.Shows.target {t : Tree} {p : Option NodeId} {k : Nat} {s : Sapling} {n m : NodeId} (h : t.Shows p k s)
    (hs : s.Targets P k) (hk : k ≤ n.index) (hn : n.index < k + s.size) (htag : t.tag n = .binary .assign)
    (hm : (t.children n).head? = some m) : P m := by
  match s, h, hs with
  | .node tag lexeme before after, ⟨hnode, hbefore, hafter⟩, ⟨hown, hs, hs'⟩ =>
    rw [Sapling.size] at hn
    rcases Nat.lt_trichotomy n.index (k + Sapling.sizes before) with hlt | heq | hgt
    · exact Tree.ShowsAll.target hbefore hs hk hlt htag hm
    · obtain rfl : n = ⟨k + Sapling.sizes before⟩ := congrArg NodeId.mk heq
      rw [Tree.tag, hnode] at htag
      rw [Tree.children, hnode] at hm
      exact hown htag m hm
    · exact Tree.ShowsAll.target hafter hs' hgt (by omega) htag hm
  | .spent lexeme, h, _ =>
    obtain rfl : n = ⟨k⟩ := congrArg NodeId.mk (Nat.le_antisymm (Nat.le_of_lt_succ hn) hk)
    rw [Tree.Shows] at h
    rw [Tree.tag, h] at htag
    cases htag

theorem Tree.ShowsAll.target {t : Tree} {p : Option NodeId} {k : Nat} {ss : List Sapling} {n m : NodeId}
    (h : t.ShowsAll p k ss) (hs : Sapling.TargetsAll P k ss) (hk : k ≤ n.index) (hn : n.index < k + Sapling.sizes ss)
    (htag : t.tag n = .binary .assign) (hm : (t.children n).head? = some m) : P m := by
  match ss, h, hs with
  | [], _, _ => exact absurd (Nat.lt_of_le_of_lt hk hn) (Nat.lt_irrefl _)
  | s :: ss, ⟨h, hrest⟩, ⟨hs, hss⟩ =>
    rw [Sapling.sizes] at hn
    by_cases hlt : n.index < k + s.size
    · exact Tree.Shows.target h hs hk hlt htag hm
    · exact Tree.ShowsAll.target hrest hss (Nat.le_of_not_lt hlt) (by omega) htag hm

end

theorem Decl.targets (d : Decl) (h : tag ≠ .binary .assign) (k : Nat) : (d.sapling tag).Targets P k := by
  obtain ⟨base, mark, name⟩ := d
  cases mark <;> cases base <;>
    simp [sapling, TypeName.sapling, TypeName.tag, Sapling.leaf, Sapling.Targets, Sapling.TargetsAll, h]

theorem Decl.targetsAll (ds : List Decl) (h : tag ≠ .binary .assign) (k : Nat) :
    Sapling.TargetsAll P k (ds.map (·.sapling tag)) := by
  induction ds generalizing k with
  | nil => trivial
  | cons d ds ih => exact ⟨d.targets h k, ih _⟩

variable {a : Analysis}

mutual

theorem Expr.Settled.targets (e : Expr) {k : Nat} (h : e.Settled a k) :
    e.sapling.Targets (fun m => (a.attrs m).roles.lvalue = true) k := by
  cases e with
  | name | constant => exact ⟨nofun, trivial, trivial⟩
  | unary op mark e | newString mark e => exact ⟨nofun, trivial, Expr.Settled.targets e h.1, trivial⟩
  | binary op left mark right =>
    obtain ⟨hleft, hright, -, hplace⟩ := h
    refine ⟨fun hop m hm => ?_, ⟨Expr.Settled.targets left hleft, trivial⟩, Expr.Settled.targets right hright, trivial⟩
    rw [Sapling.tops, left.top_sapling] at hm
    cases hop
    cases hm
    exact hplace rfl
  | call callee paren args =>
    exact ⟨nofun, ⟨⟨nofun, trivial, trivial⟩, trivial⟩, Expr.SettledAll.targets args h.2.1⟩
  | index base bracket subscript =>
    exact ⟨nofun, ⟨Expr.Settled.targets base h.1, trivial⟩, Expr.Settled.targets subscript h.2.1, trivial⟩
  | select object dot field =>
    exact ⟨nofun, ⟨Expr.Settled.targets object h.1, trivial⟩, ⟨nofun, trivial, trivial⟩, trivial⟩
  | newStruct mark tag => exact ⟨nofun, trivial, ⟨nofun, trivial, trivial⟩, trivial⟩
  | newArray element mark count =>
    refine ⟨nofun, ⟨⟨?_, trivial, trivial⟩, trivial⟩, Expr.Settled.targets count h.1, trivial⟩
    cases element <;> nofun

theorem Expr.SettledAll.targets (es : List Expr) {k : Nat} (h : Expr.SettledAll a k es) :
    Sapling.TargetsAll (fun m => (a.attrs m).roles.lvalue = true) k (Expr.saplings es) := by
  match es, h with
  | [], _ => trivial
  | e :: es, h => exact ⟨Expr.Settled.targets e h.1, Expr.SettledAll.targets es h.2⟩

end

mutual

theorem Stmt.Settled.targets (s : Stmt) {k : Nat} (h : s.Settled a k) :
    s.sapling.Targets (fun m => (a.attrs m).roles.lvalue = true) k := by
  cases s with
  | block brace body => exact ⟨nofun, trivial, Stmt.SettledAll.targets body h⟩
  | empty | returnVoid => exact ⟨nofun, trivial, trivial⟩
  | varDecl d equals init =>
    refine ⟨nofun, ⟨d.targets (by decide) k, trivial⟩, ?_, trivial⟩
    rw [Sapling.sizes, Sapling.sizes, d.size_sapling]
    exact h.2.targets
  | whileLoop mark cond body => exact ⟨nofun, trivial, h.1.targets, Stmt.Settled.targets body h.2, trivial⟩
  | ifThen mark cond yes => exact ⟨nofun, trivial, h.1.targets, Stmt.Settled.targets yes h.2, trivial⟩
  | ifElse mark cond yes no =>
    exact ⟨nofun, trivial, h.1.targets, Stmt.Settled.targets yes h.2.1, Stmt.Settled.targets no h.2.2, trivial⟩
  | returnValue mark value => exact ⟨nofun, trivial, Expr.Settled.targets value h, trivial⟩
  | expr e => exact Expr.Settled.targets e h

theorem Stmt.SettledAll.targets (ss : List Stmt) {k : Nat} (h : Stmt.SettledAll a k ss) :
    Sapling.TargetsAll (fun m => (a.attrs m).roles.lvalue = true) k (Stmt.saplings ss) := by
  match ss, h with
  | [], _ => trivial
  | s :: ss, h => exact ⟨Stmt.Settled.targets s h.1, Stmt.SettledAll.targets ss h.2⟩

end

theorem Item.Settled.targets (i : Item) (h : i.Settled a k) :
    i.sapling.Targets (fun m => (a.attrs m).roles.lvalue = true) k := by
  cases i with
  | struct mark tag fields => exact ⟨nofun, trivial, ⟨nofun, trivial, trivial⟩, Decl.targetsAll fields (by decide) _⟩
  | function d paren params brace body =>
    refine ⟨nofun, ⟨d.targets (by decide) k, ⟨nofun, trivial, Decl.targetsAll params (by decide) _⟩, ⟨nofun, trivial, ?_⟩, trivial⟩, trivial⟩
    rw [d.size_sapling, size_params, Sapling.sizes, ← Nat.add_assoc]
    exact Stmt.SettledAll.targets body h.2.2
  | prototype d paren params semicolon =>
    exact ⟨nofun, ⟨d.targets (by decide) k, ⟨nofun, trivial, Decl.targetsAll params (by decide) _⟩, trivial, trivial⟩, trivial⟩
  | stmt s => exact Stmt.Settled.targets s h

theorem Item.SettledAll.targets (is : List Item) (h : Item.SettledAll a k is) :
    Sapling.TargetsAll (fun m => (a.attrs m).roles.lvalue = true) k (is.map sapling) := by
  induction is generalizing k with
  | nil => trivial
  | cons i is ih => exact ⟨Item.Settled.targets i h.1, ih h.2⟩

/-- The tree has the nodes of a program and no others. -/
structure Tree.IsOf (t : Tree) (items : List Item) : Prop where
  shows : t.Shows none 0 (Program.sapling items)
  size_eq : t.size = (Program.sapling items).size

theorem Tree.exists_isOf (items : List Item) : ∃ t : Tree, t.IsOf items := by
  obtain ⟨t, hgrown, hshows⟩ := Tree.exists_shows ⟨#[]⟩ (Program.sapling items)
  exact ⟨t, hshows, hgrown.size_eq.trans (Nat.zero_add _)⟩

/-- A node of a program stands for what a function gives back. -/
structure FunctionValue (items : List Item) (t : Tree) (a : Analysis) (n : NodeId) : Prop where
  declared : ∃ d ∈ Program.functions items, d.name.text = t.text n ∧ a.typeOf n = some d.type
  notPlace : (a.attrs n).roles.lvalue = false
  notTarget : ∀ q, t.tag q = .binary .assign → (t.children q).head? ≠ some n
  /-- As an operand, it is the name of the function in oil. -/
  operand : ∀ slots depth next, ∃ o, (Oil.Context.mk t a slots).expr (depth + 1) n next = .ok ⟨o, [], next⟩ ∧
    o.text = Oil.globalName (t.text n)

namespace Analysis

variable {tokens : List Token} {root : NodeId} {t : Tree} {a : Analysis} {log : Log}

theorem lvalue_of_target (h : Tree.empty.parse tokens = (.ok root, t)) (ha : ofTree t log = .ok a) (hquiet : a.log = log)
    {q m : NodeId} (hq : t.tag q = .binary .assign) (hm : (t.children q).head? = some m) :
    (a.attrs m).roles.lvalue = true := by
  obtain rfl := Except.ok.inj ((ofTree_parse h log).symm.trans ha)
  obtain ⟨-, hshows, hsize⟩ := Tree.parse_shows h
  have hsettled := Item.SettledAll.targets _ (Program.settled_of_quiet hquiet).1
  refine hshows.target (P := fun m => (attrs _ m).roles.lvalue = true) ⟨nofun, trivial, hsettled⟩ (Nat.zero_le _) ?_ hq hm
  rw [Nat.zero_add, ← hsize]
  exact Tree.index_lt_of_tag (by rw [hq]; decide)

/-- The name of a function is a value of the type that the function gives back. In a program that is not complained about,
    all nodes that name functions are such values. They may stand wherever calls may: if any calls are cut down to the
    names of their functions, the program is still not complained about. -/
theorem functionValue_of_name (h : Tree.empty.parse tokens = (.ok root, t)) (ha : ofTree t log = .ok a)
    (hquiet : a.log = log) :
    (∀ n, t.tag n = .name → (a.attrs n).roles.function = true → FunctionValue (Program.ofTokens tokens).items t a n) ∧
      ∀ chosen, ∃ t' a', t'.IsOf ((Program.ofTokens tokens).items.map (Item.uncall chosen)) ∧
        ofTree t' log = .ok a' ∧ a'.log = log := by
  have htarget := @lvalue_of_target _ _ _ _ _ h ha hquiet
  obtain rfl := Except.ok.inj ((ofTree_parse h log).symm.trans ha)
  refine ⟨fun n hn hfunction => ?_, fun chosen => ?_⟩
  · obtain ⟨-, hshows, hsize⟩ := Tree.parse_shows h
    obtain ⟨blocks, hmem⟩ := Program.exists_refer hshows hsize (Tree.index_lt_of_tag (by rw [hn]; decide)) hn
    obtain ⟨d, hd, hname, hblock, announced, hattrs⟩ :=
      Program.function_of_mem_references (List.mem_filterMap.mpr ⟨_, hmem, rfl⟩) hfunction
    have hplace : ((Program.analyze (Program.ofTokens tokens).items log).attrs n).roles.lvalue = false := by rw [hattrs]; rfl
    refine ⟨⟨d, hd, hname, by rw [typeOf, hattrs]; rfl⟩, hplace, fun q hq hhead => ?_, fun slots depth next => ?_⟩
    · cases (htarget hq hhead).symm.trans hplace
    · refine ⟨.var ⟨t.text n, globalBlock⟩, ?_, rfl⟩
      simp [Oil.Context.expr, Oil.Context.named, hn, hblock]
  · obtain ⟨t', hof⟩ := Tree.exists_isOf ((Program.ofTokens tokens).items.map (Item.uncall chosen))
    exact ⟨t', _, hof, ofTree_shows hof.shows hof.size_eq log, Program.log_uncall hquiet chosen⟩

/-- Names of functions that are returned, that are operands, the first value of a variable, an argument, a condition, an
    array and its subscript, the value and the object of an assignment and a size, and that stand alone. -/
def namingFunctions : String :=
  "struct p \x7bint v;\x7d\nint f();\nbool b();\nint[] h();\np o();\n" ++
    "int k(int a) \x7b return f; \x7d\nint x = f;\nx = k(f) + -f;\nif (b) x = h[f];\nx = o.v;\nx = f;\nnew int[f];\nf;\n"

theorem functionValue_of_name_everywhere :
    ∃ s root t a, TokenStream.ofText "t" namingFunctions = .ok s ∧ Tree.empty.parse s.tokens = (.ok root, t) ∧ ofTree t #[] = .ok a ∧ a.log = #[] ∧
      ((List.range t.size).filter fun i => t.tag ⟨i⟩ = .name && (a.attrs ⟨i⟩).roles.function).map (fun i => t.text ⟨i⟩) =
        ["f", "f", "k", "f", "f", "b", "h", "f", "o", "f", "f", "f"] ∧
      (∀ n, t.tag n = .name → (a.attrs n).roles.function = true → FunctionValue (Program.ofTokens s.tokens).items t a n) ∧
      ∀ chosen, ∃ t' a', t'.IsOf ((Program.ofTokens s.tokens).items.map (Item.uncall chosen)) ∧
        ofTree t' #[] = .ok a' ∧ a'.log = #[] := by
  have hread : passes namingFunctions (fun t a => a.log = #[] ∧ ((List.range t.size).filter fun i =>
          t.tag ⟨i⟩ = .name && (a.attrs ⟨i⟩).roles.function).map (fun i => t.text ⟨i⟩) =
        ["f", "f", "k", "f", "f", "b", "h", "f", "o", "f", "f", "f"]) = true := by
    decide +kernel
  obtain ⟨s, root, t, a, hs, hparse, ha, hread⟩ := exists_of_passes hread
  obtain ⟨hquiet, hnames⟩ := of_decide_eq_true hread
  exact ⟨s, root, t, a, hs, hparse, ha, hquiet, hnames, functionValue_of_name hparse ha hquiet⟩

/-- A function's name may be the first value of a variable, in a program without any calls. -/
theorem functionName_initializes :
    ∃ s root t a n q, TokenStream.ofText "t" "int f(); int x = f;" = .ok s ∧ Tree.empty.parse s.tokens = (.ok root, t) ∧
      ofTree t #[] = .ok a ∧ a.log = #[] ∧ t.tag n = .name ∧ (a.attrs n).roles.function = true ∧
      t.tag q = .varDecl ∧ t.parent n = some q ∧ (∀ m, t.tag m ≠ .call) ∧
      (Compilation.module? "t" "int f(); int x = f;").map Oil.Module.text =
        some "int __x;\nvoid __ocmain (void)\n\x7b\n        __x = __f;\n\x7d\n" := by
  have hread : passes "int f(); int x = f;" (fun t a => a.log = #[] ∧ t.tag ⟨9⟩ = .name ∧
      (a.attrs ⟨9⟩).roles.function = true ∧ t.tag ⟨8⟩ = .varDecl ∧ t.parent ⟨9⟩ = some ⟨8⟩ ∧ ∀ i < t.size, t.tag ⟨i⟩ ≠ .call) = true := by
    decide +kernel
  obtain ⟨s, root, t, a, hs, hparse, ha, hread⟩ := exists_of_passes hread
  obtain ⟨hquiet, hname, hfunction, hdecl, hparent, hcall⟩ := of_decide_eq_true hread
  have hnone (m : NodeId) : t.tag m ≠ .call := fun hm => hcall m.index (Tree.index_lt_of_tag (by rw [hm]; decide)) hm
  exact ⟨s, root, t, a, ⟨9⟩, ⟨8⟩, hs, hparse, ha, hquiet, hname, hfunction, hdecl, hparent, hnone, by decide +kernel⟩

end Analysis

end OcCompiler
