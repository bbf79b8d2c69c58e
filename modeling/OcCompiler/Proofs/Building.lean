import OcCompiler.Proofs.Planting
import OcCompiler.Proofs.Reading

/-! Building a tree goes along with reading. Where the reading succeeds, so does the building, and the node that it
    returns is live, detached and on top of exactly the nodes that what was read calls for. Where the reading fails, the
    building reports the same failure. So no adoption is ever refused. -/

namespace OcCompiler

open Tree

section Alongside

variable {α β : Type} {P Q : Cursor → Prop} {t u : Tree} {n : NodeId} {tag : Tag} {x : Lexeme}

/-- Reading and building come to the same end. If it is a success, what was read, the node and the tree belong together. -/
inductive Alongside (good : α → NodeId → Tree → Prop) : Except Failure (α × { r : Cursor // P r }) →
    EStateM.Result ParseError Tree (NodeId × { r : Cursor // P r }) → Prop where
  | ok {a : α} {n : NodeId} {r : { r : Cursor // P r }} {u : Tree} (h : good a n u) :
    Alongside good (.ok (a, r)) (.ok (n, r) u)
  | error {f : Failure} {u : Tree} : Alongside good (.error f) (.error f.error u)

namespace Alongside

variable {good : α → NodeId → Tree → Prop} {good' : β → NodeId → Tree → Prop}
  {m : Except Failure (α × { r : Cursor // P r })} {b : Building (NodeId × { r : Cursor // P r })}
  {k : α × { r : Cursor // P r } → Except Failure (β × { r : Cursor // Q r })}
  {k' : NodeId × { r : Cursor // P r } → Building (NodeId × { r : Cursor // Q r })}
  {e : Except Failure (β × { r : Cursor // Q r })} {next : NodeId → Building (NodeId × { r : Cursor // Q r })}

theorem bind (h : Alongside good m (b t)) (hk : ∀ a n r near u, good a n u →
    Alongside good' (k (a, ⟨r, near⟩)) (k' (n, ⟨r, near⟩) u)) : Alongside good' (m >>= k) ((b >>= k') t) := by
  show Alongside good' (m >>= k) (EStateM.bind b k' t)
  rw [EStateM.bind]
  generalize b t = result at h
  cases h with
  | ok h => exact hk _ _ _ _ _ h
  | error => exact .error

theorem read {got : α × { r : Cursor // P r } → Building (NodeId × { r : Cursor // Q r })}
    (hk : ∀ a r near, Alongside good' (k (a, ⟨r, near⟩)) (got (a, ⟨r, near⟩) t)) :
    Alongside good' (m >>= k) ((liftM m >>= got) t) := by
  cases m with
  | ok a => exact hk _ _ _
  | error f => exact .error

theorem of_ok {a : α} {r : { r : Cursor // P r }} (h : Alongside good (.ok (a, r)) (b t)) :
    ∃ n u, b t = .ok (n, r) u ∧ good a n u := by
  generalize b t = result at h
  cases h with
  | ok h => exact ⟨_, _, rfl, h⟩

theorem push (h : Alongside good' e (next ⟨t.size⟩ (t.push tag x).2)) :
    Alongside good' e ((Build.push tag x >>= next) t) := h

theorem look {next : Tree → Building (NodeId × { r : Cursor // Q r })} (h : Alongside good' e (next t t)) :
    Alongside good' e ((get >>= next) t) := h

theorem edit {change : Tree → Edit} {ns : List NodeId} (hchange : change t = ⟨.ok n, u, ns⟩)
    (h : Alongside good' e (next n u)) : Alongside good' e ((Build.edit change >>= next) t) := by
  show Alongside good' e (EStateM.bind (Build.edit change) next t)
  rw [EStateM.bind, Build.edit, hchange]
  exact h

end Alongside

end Alongside

namespace Build

variable {t u : Tree}

theorem along_typeName (c : Cursor) (t : Tree) :
    Alongside (fun b => t.Grows b.sapling) (Parse.typeName c) (typeName c t) := by
  rw [Parse.typeName, typeName]
  cases hnext : c.next? with
  | none => exact .error
  | some found =>
    obtain ⟨x, r⟩ := found
    have hpass : c.Passes x r := ⟨r.2, hnext⟩
    rw [hpass.kind]
    dsimp only
    cases x.kind with
    | scalar q => exact .ok (t.grows_push _ x.lexeme nofun)
    | name => exact .ok (t.grows_push _ x.lexeme nofun)
    | _ => exact .error

theorem openTag_ne (op : UnaryOp) : openTag op ≠ .released := by
  cases op <;> nofun

theorem tag_eq_name_iff {e : Expr} {n : NodeId} (h : t.Grows e.sapling n u) :
    u.tag n = .name ↔ ∃ callee, e = .name callee := by
  cases e with
  | name | constant => simp [Grows.node_top h]
  | _ =>
    rw [Expr.sapling] at h
    simp [h.node_top]

mutual

theorem along_expr (level : Nat) (c : Cursor) (t : Tree) :
    Alongside (fun e => t.Grows e.sapling) (Parse.expr level c) (expr level c t) := by
  rw [Parse.expr, expr]
  refine (along_operand c t).bind fun left n r _ u hleft => ?_
  refine (along_climb level r hleft).bind fun e n rest _ v h => .ok h
termination_by 5 * c.size + 1

theorem along_operand (c : Cursor) (t : Tree) :
    Alongside (fun e => t.Grows e.sapling) (Parse.operand c) (operand c t) := by
  rw [Parse.operand, operand]
  cases hnext : c.next? with
  | none => exact .error
  | some found =>
    obtain ⟨x, r, near⟩ := found
    dsimp only
    cases hlead : Parse.lead? x.kind with
    | none => exact .error
    | some lead =>
      cases lead with
      | name => exact .ok (t.grows_push _ x.lexeme nofun)
      | constant q => exact .ok (t.grows_push _ x.lexeme nofun)
      | unary op =>
        refine .push ((along_expr Binding.unaryLevel r _).bind fun e n rest _ u he => ?_)
        obtain ⟨v, hv, hgrows⟩ := (t.grows_push _ x.lexeme (openTag_ne op)).adoptAs he (show Tag.unary op ≠ _ from nofun)
        exact .edit hv (.ok hgrows)
      | paren =>
        refine (along_expr 0 r t).bind fun e n rest _ u he => .read fun _ _ _ => .ok he
      | new =>
        dsimp only
        split
        · refine .read fun _ r _ => .push (.read fun _ r _ => ?_)
          refine (along_expr 0 r _).bind fun size n r _ u hsize => .read fun _ _ _ => ?_
          obtain ⟨v, hv, hgrows⟩ := (t.grows_push .newString x.lexeme nofun).adopt hsize
          exact .edit hv (.ok hgrows)
        · split
          · refine .read fun tag r _ => .push (.push (.read fun _ r _ => .read fun _ _ _ => ?_))
            obtain ⟨v, hv, hgrows⟩ := (t.grows_push .newStruct x.lexeme nofun).adopt
              (grows_push _ .typeName tag.lexeme nofun)
            exact .edit hv (.ok hgrows)
          · refine (along_typeName r t).bind fun element n r _ u helement => .push (.read fun _ r _ => ?_)
            refine (along_expr 0 r _).bind fun size n r _ u hsize => .read fun _ _ _ => ?_
            obtain ⟨v, hv, hgrows⟩ := helement.adopt2_between hsize nofun
            exact .edit hv (.ok hgrows)
termination_by 5 * c.size
decreasing_by all_goals dsimp only at *; omega

theorem along_climb (level : Nat) {left : Expr} {l : NodeId} {t u : Tree} (c : Cursor) (h : t.Grows left.sapling l u) :
    Alongside (fun e => t.Grows e.sapling) (Parse.climb level left c) (climb level l c u) := by
  rw [Parse.climb, climb]
  cases hnext : c.next? with
  | none => exact .ok h
  | some found =>
    obtain ⟨x, r, near⟩ := found
    cases hgo : c.kind.continuation? with
    | none => exact .ok h
    | some next =>
      dsimp only
      split
      · exact .ok h
      · refine .look ?_
        cases next with
        | call =>
          cases left with
          | name callee =>
            rw [if_neg (by simp [tag_eq_name_iff h])]
            simp only [extend, bind_assoc]
            refine .push ?_
            obtain ⟨v, hv, hgrows⟩ := h.adopt_above .call x.lexeme nofun
            refine .edit hv ?_
            refine (along_callArgs r hgrows).bind fun args n r _ w hargs => ?_
            exact (along_climb level r hargs).bind fun e n rest _ v h => .ok h
          | _ =>
            rw [if_pos ⟨rfl, by simp [tag_eq_name_iff h]⟩]
            exact .ok h
        | subscript =>
          simp only [reduceCtorEq, false_and, if_false, extend, bind_assoc, pure_bind]
          refine .push ?_
          refine (along_expr 0 r _).bind fun subscript n r _ v hsubscript => .read fun _ r _ => ?_
          obtain ⟨w, hw, hgrows⟩ := h.adopt2_between hsubscript nofun
          exact .edit hw ((along_climb level r hgrows).bind fun e n rest _ v h => .ok h)
        | selection =>
          simp only [reduceCtorEq, false_and, if_false, extend, bind_assoc, pure_bind]
          refine .push ?_
          refine .read fun field r _ => .push ?_
          obtain ⟨w, hw, hgrows⟩ := h.adopt2_between (grows_push (u.push .select x.lexeme).2 .field field.lexeme nofun) nofun
          exact .edit hw ((along_climb level r hgrows).bind fun e n rest _ v h => .ok h)
        | operator op =>
          simp only [reduceCtorEq, false_and, if_false, extend, bind_assoc, pure_bind]
          refine .push ?_
          refine (along_expr op.binding.operandLevel r _).bind fun right n r _ v hright => ?_
          obtain ⟨w, hw, hgrows⟩ := h.adopt2_between hright nofun
          exact .edit hw ((along_climb level r hgrows).bind fun e n rest _ v h => .ok h)
termination_by 5 * c.size
decreasing_by all_goals dsimp only at *; omega

theorem along_callArgs {x : Lexeme} {before after : List Sapling} {n : NodeId} {t u : Tree} (c : Cursor)
    (h : t.Grows (.node .call x before after) n u) :
    Alongside (fun args m v => t.Grows (.node .call x before (after ++ Expr.saplings args)) m v) (Parse.callArgs c)
      (callArgs n c u) := by
  rw [Parse.callArgs, callArgs]
  cases c.accept? (.punct ')') with
  | some found => exact .ok (by simpa [Expr.saplings] using h)
  | none => exact along_moreArgs c h
termination_by 5 * c.size + 3

theorem along_moreArgs {x : Lexeme} {before after : List Sapling} {n : NodeId} {t u : Tree} (c : Cursor)
    (h : t.Grows (.node .call x before after) n u) :
    Alongside (fun args m v => t.Grows (.node .call x before (after ++ Expr.saplings args)) m v) (Parse.moreArgs c)
      (moreArgs n c u) := by
  rw [Parse.moreArgs, moreArgs]
  refine (along_expr 0 c u).bind fun arg m r _ v harg => ?_
  obtain ⟨w, hw, hgrows⟩ := h.adopt harg
  refine .edit hw ?_
  dsimp only
  cases r.accept? (.punct ',') with
  | some found =>
    obtain ⟨_, r, _⟩ := found
    exact (along_moreArgs r hgrows).bind fun args n rest _ v h => .ok (by simpa [Expr.saplings] using h)
  | none => exact .read fun _ _ _ => .ok (by simpa [Expr.saplings] using hgrows)
termination_by 5 * c.size + 2

end

/-! ### Declarations and statements -/

theorem along_decl (nameTag : Tag) (hname : nameTag ≠ .released) (c : Cursor) (t : Tree) :
    Alongside (fun d => t.Grows (d.sapling nameTag)) (Parse.decl c) (decl nameTag c t) := by
  rw [Parse.decl, decl]
  refine (along_typeName c t).bind fun base n r _ u hbase => ?_
  dsimp only
  cases r.accept? .arrayMark with
  | some found =>
    refine .read fun name rest _ => .push (.push ?_)
    obtain ⟨v, hv, hgrows⟩ := hbase.adopt2_above (grows_push u nameTag name.lexeme hname) .array found.1.lexeme nofun
    exact .edit hv (.ok hgrows)
  | none =>
    refine .read fun name rest _ => .push ?_
    obtain ⟨v, hv, hgrows⟩ := hbase.adopt (grows_push u nameTag name.lexeme hname)
    exact .edit hv (.ok hgrows)

theorem along_varDecl {d : Decl} {n : NodeId} (c : Cursor) (h : t.Grows (d.sapling .declName) n u) :
    Alongside (fun s => t.Grows s.sapling) (Parse.varDecl d c) (varDecl n c u) := by
  rw [Parse.varDecl, varDecl]
  refine .read fun equals r _ => .push ?_
  refine (along_expr 0 r _).bind fun init n r _ u hinit => .read fun _ _ _ => ?_
  obtain ⟨v, hv, hgrows⟩ := h.adopt2_between hinit nofun
  exact .edit hv (.ok hgrows)

theorem along_condition (c : Cursor) (t : Tree) :
    Alongside (fun e => t.Grows e.sapling) (Parse.condition c) (condition c t) := by
  rw [Parse.condition, condition]
  refine .read fun _ r _ => ?_
  exact (along_expr 0 r t).bind fun e n r _ u he => .read fun _ _ _ => .ok he

theorem along_returnRest (mark : Lexeme) (c : Cursor) (t : Tree) :
    Alongside (fun s => t.Grows s.sapling) (Parse.returnRest mark c) (returnRest mark c t) := by
  rw [Parse.returnRest, returnRest]
  have hmark := t.grows_push .returnValue mark nofun
  refine .push ?_
  cases c.accept? (.punct ';') with
  | some found => exact .ok (hmark.setTag nofun)
  | none =>
    refine (along_expr 0 c _).bind fun value n r _ u hvalue => .read fun _ _ _ => ?_
    obtain ⟨v, hv, hgrows⟩ := hmark.adopt hvalue
    exact .edit hv (.ok hgrows)

theorem along_plainStmt (c : Cursor) (t : Tree) :
    Alongside (fun s => t.Grows s.sapling) (Parse.plainStmt c) (plainStmt c t) := by
  rw [Parse.plainStmt, plainStmt]
  split
  · refine (along_decl .declName nofun c t).bind fun d n r _ u hd => ?_
    exact (along_varDecl r hd).bind fun s n rest _ v hs => .ok hs
  · refine (along_expr 0 c t).bind fun e n r _ u he => .read fun _ _ _ => .ok ?_
    rw [Stmt.sapling]
    exact he

mutual

theorem along_stmt (c : Cursor) (t : Tree) :
    Alongside (fun s => t.Grows s.sapling) (Parse.stmt c) (stmt c t) := by
  rw [Parse.stmt, stmt]
  cases hnext : c.next? with
  | none => exact along_plainStmt c t
  | some found =>
    obtain ⟨x, r, near⟩ := found
    cases hlead : Parse.stmtLead? c.kind with
    | none => exact along_plainStmt c t
    | some lead =>
      cases lead with
      | block =>
        refine .push ?_
        exact (along_stmts r (t.grows_push .block x.lexeme nofun)).bind fun body n rest _ u h => .ok h
      | empty => exact .ok (t.grows_push .semicolon x.lexeme nofun)
      | whileLoop =>
        refine .push ?_
        refine (along_condition r _).bind fun cond n r _ u hcond => ?_
        refine (along_stmt r u).bind fun body n rest _ v hbody => ?_
        obtain ⟨w, hw, hgrows⟩ := hcond.adopt2_below hbody nofun
        exact .edit hw (.ok hgrows)
      | ifThen =>
        refine .push ?_
        refine (along_condition r _).bind fun cond n r _ u hcond => ?_
        refine (along_stmt r u).bind fun yes n r _ v hyes => ?_
        obtain ⟨w, hw, hgrows⟩ := hcond.adopt2_below hyes nofun
        refine .edit hw ?_
        dsimp only
        cases r.accept? (.keyword .elseWord) with
        | some found =>
          obtain ⟨_, r, _⟩ := found
          refine (along_stmt r w).bind fun no n rest _ v hno => ?_
          obtain ⟨w, hw, hgrows⟩ := hgrows.adoptAs hno (show Tag.ifElse ≠ _ from nofun)
          exact .edit hw (.ok hgrows)
        | none => exact .ok hgrows
      | returnValue => exact (along_returnRest x.lexeme r t).bind fun s n rest _ u hs => .ok hs
termination_by 2 * c.size
decreasing_by all_goals dsimp only at *; omega

theorem along_stmts {x : Lexeme} {after : List Sapling} {n : NodeId} {t u : Tree} (c : Cursor)
    (h : t.Grows (.node .block x [] after) n u) :
    Alongside (fun ss m v => t.Grows (.node .block x [] (after ++ Stmt.saplings ss)) m v) (Parse.stmts c)
      (stmts n c u) := by
  rw [Parse.stmts, stmts]
  cases c.accept? (.punct '\x7d') with
  | some found => exact .ok (by simpa [Stmt.saplings] using h)
  | none =>
    dsimp only
    split
    · exact .error
    · refine (along_stmt c u).bind fun s m r _ v hs => ?_
      obtain ⟨w, hw, hgrows⟩ := h.adopt hs
      refine .edit hw ?_
      exact (along_stmts r hgrows).bind fun ss n rest _ v h => .ok (by simpa [Stmt.saplings] using h)
termination_by 2 * c.size + 1

end

/-! ### Items -/

theorem exists_sapling_eq (d : Decl) (nameTag : Tag) :
    ∃ tag x before after, d.sapling nameTag = .node tag x before after ∧ x.loc = d.loc := by
  obtain ⟨base, mark, name⟩ := d
  cases mark with
  | none => exact ⟨_, _, _, _, rfl, rfl⟩
  | some mark => exact ⟨_, _, _, _, rfl, rfl⟩

theorem along_fields {tag : Tag} {x : Lexeme} {after : List Sapling} {n : NodeId} {t u : Tree} (c : Cursor)
    (h : t.Grows (.node tag x [] after) n u) :
    Alongside (fun ds m v => t.Grows (.node tag x [] (after ++ ds.map (·.sapling .field))) m v) (Parse.fields c)
      (fields n c u) := by
  rw [Parse.fields, fields]
  cases c.accept? (.punct '\x7d') with
  | some found => exact .ok (by simpa using h)
  | none =>
    refine (along_decl .field nofun c u).bind fun d m r _ v hd => .read fun _ r _ => ?_
    obtain ⟨w, hw, hgrows⟩ := h.adopt hd
    refine .edit hw ?_
    exact (along_fields r hgrows).bind fun ds n rest _ v h => .ok (by simpa using h)
termination_by c.size
decreasing_by dsimp only at *; omega

theorem along_moreParams {tag : Tag} {x : Lexeme} {after : List Sapling} {n : NodeId} {t u : Tree} (c : Cursor)
    (h : t.Grows (.node tag x [] after) n u) :
    Alongside (fun ds m v => t.Grows (.node tag x [] (after ++ ds.map (·.sapling .declName))) m v)
      (Parse.moreParams c) (moreParams n c u) := by
  rw [Parse.moreParams, moreParams]
  refine (along_decl .declName nofun c u).bind fun d m r _ v hd => ?_
  obtain ⟨w, hw, hgrows⟩ := h.adopt hd
  refine .edit hw ?_
  dsimp only
  cases r.accept? (.punct ',') with
  | some found =>
    obtain ⟨_, r, _⟩ := found
    exact (along_moreParams r hgrows).bind fun ds n rest _ v h => .ok (by simpa using h)
  | none => exact .read fun _ _ _ => .ok (by simpa using hgrows)
termination_by c.size

theorem along_params {tag : Tag} {x : Lexeme} {after : List Sapling} {n : NodeId} {t u : Tree} (c : Cursor)
    (h : t.Grows (.node tag x [] after) n u) :
    Alongside (fun ds m v => t.Grows (.node tag x [] (after ++ ds.map (·.sapling .declName))) m v)
      (Parse.params c) (params n c u) := by
  rw [Parse.params, params]
  cases c.accept? (.punct ')') with
  | some found => exact .ok (by simpa using h)
  | none => exact along_moreParams c h

theorem along_struct (mark : Lexeme) (c : Cursor) (t : Tree) :
    Alongside (fun i => t.Grows i.sapling) (Parse.struct mark c) (struct mark c t) := by
  rw [Parse.struct, struct]
  refine .push ?_
  refine .read fun tag r _ => .push ?_
  obtain ⟨u, hu, hgrows⟩ := (t.grows_push .struct mark nofun).adopt (grows_push _ .typeName tag.lexeme nofun)
  refine .edit hu (.read fun _ r _ => ?_)
  refine (along_fields r hgrows).bind fun ds n r _ v h => ?_
  dsimp only
  cases r.accept? (.punct ';') with
  | some found => exact .ok h
  | none => exact .ok h

theorem along_function {d : Decl} {n : NodeId} (paren : Lexeme) (c : Cursor) (h : t.Grows (d.sapling .declName) n u) :
    Alongside (fun i => t.Grows i.sapling) (Parse.function d paren c) (function n paren c u) := by
  obtain ⟨tag, x, before, after, hd, hloc⟩ := exists_sapling_eq d .declName
  rw [Parse.function, function]
  refine .push ?_
  refine (along_params c (u.grows_push .paramList paren nofun)).bind fun ds m r _ v hparams => ?_
  rw [hd] at h
  dsimp only
  cases r.accept? (.punct ';') with
  | some found =>
    refine .push ?_
    obtain ⟨w, hw, hgrows⟩ := h.adoptPrototype hparams found.1.lexeme
    refine .edit hw (.ok ?_)
    rw [hloc, ← hd] at hgrows
    exact hgrows
  | none =>
    dsimp only
    cases r.accept? (.punct '\x7b') with
    | none => exact .error
    | some found =>
      refine .push ?_
      refine (along_stmts _ (v.grows_push .block found.1.lexeme nofun)).bind fun body k rest _ w hbody => ?_
      obtain ⟨w', hw, hgrows⟩ := h.adoptFunction hparams hbody
      refine .edit hw (.ok ?_)
      rw [hloc, ← hd] at hgrows
      exact hgrows

theorem along_item (c : Cursor) (t : Tree) :
    Alongside (fun i => t.Grows i.sapling) (Parse.item c) (item c t) := by
  rw [Parse.item, item]
  cases c.accept? (.keyword .structWord) with
  | some found =>
    obtain ⟨mark, r, _⟩ := found
    exact (along_struct mark.lexeme r t).bind fun i n rest _ u h => .ok h
  | none =>
    dsimp only
    split
    · refine (along_decl .declName nofun c t).bind fun d n r _ u hd => ?_
      dsimp only
      cases r.accept? (.punct '(') with
      | some found =>
        obtain ⟨paren, r, _⟩ := found
        exact (along_function paren.lexeme r hd).bind fun i n rest _ v h => .ok h
      | none => exact (along_varDecl r hd).bind fun s n rest _ v h => .ok h
    · rw [← bind_pure (stmt c)]
      exact (along_stmt c t).bind fun s n rest _ u h => .ok h

theorem program_eq {x : Lexeme} {after : List Sapling} {t u : Tree} (c : Cursor)
    (h : t.Grows (.node .root x [] after) .root u) : ∃ v,
    program c u = (Program.read c).failure.elim (.ok .root v) (fun f => .error f.error v) ∧
      ((Program.read c).failure = none →
        t.Grows (.node .root x [] (after ++ (Program.read c).items.map Item.sapling)) .root v) := by
  rw [program, Program.read]
  split
  · exact ⟨u, rfl, fun _ => by simpa using h⟩
  · have hitem := along_item c u
    show ∃ v, EStateM.bind (item c) _ u = _ ∧ _
    rw [EStateM.bind]
    generalize Parse.item c = i, item c u = b at hitem
    cases hitem with
    | error => exact ⟨_, rfl, nofun⟩
    | ok hi =>
      rename_i a n r v
      obtain ⟨r, near⟩ := r
      obtain ⟨w, hw, hgrows⟩ := h.adopt hi
      obtain ⟨z, hz, hshown⟩ := program_eq r hgrows
      refine ⟨z, ?_, fun hnone => by simpa using hshown hnone⟩
      show EStateM.bind (edit _) _ v = _
      rw [EStateM.bind, edit, hw]
      exact hz
termination_by c.size

end Build

/-- The sapling has a topmost node, which is not released. -/
def Sapling.Live : Sapling → Prop
  | .node tag _ _ _ => tag ≠ .released
  | .spent _ => False

theorem Expr.live_sapling (e : Expr) : e.sapling.Live := by
  cases e <;> simp [Expr.sapling, Sapling.Live, Sapling.leaf]

theorem Stmt.live_sapling (s : Stmt) : s.sapling.Live := by
  cases s with
  | expr e => simpa [Stmt.sapling] using e.live_sapling
  | _ => simp [Stmt.sapling, Sapling.Live, Sapling.leaf]

theorem Item.live_sapling (i : Item) : i.sapling.Live := by
  cases i with
  | stmt s => exact s.live_sapling
  | _ => simp [Item.sapling, Item.structSapling, Sapling.Live]

theorem Sapling.length_tops_of_live {α : Type} {f : α → Sapling} (hf : ∀ x, (f x).Live) (k : Nat) (xs : List α) :
    (tops k (xs.map f)).length = xs.length := by
  induction xs generalizing k with
  | nil => rfl
  | cons x xs ih =>
    have hx := hf x
    rw [List.map_cons, tops, List.length_append, ih, List.length_cons, Nat.add_comm]
    cases hs : f x with
    | node tag lexeme before after => rfl
    | spent lexeme =>
      rw [hs] at hx
      exact hx.elim

/-- The sapling of a whole program: its items are the children of the root. -/
def Program.sapling (items : List Item) : Sapling :=
  .node .root ⟨"<<ROOT>>", {}⟩ [] (items.map Item.sapling)

namespace Tree

open Sapling (sizes tops)

variable {tokens : List Token} {t : Tree} {items : List Item} {e : ParseError}

theorem shows_root :
    t.Shows none 0 (Program.sapling items) ↔
      t.node .root = { tag := .root, lexeme := ⟨"<<ROOT>>", {}⟩, children := tops 1 (items.map Item.sapling) } ∧
        t.ShowsAll (some .root) 1 (items.map Item.sapling) := by
  simp [Program.sapling, Shows, ShowsAll, sizes, tops, NodeId.root]

theorem parse_eq (tokens : List Token) : ∃ t,
    empty.parse tokens = ((Program.ofTokens tokens).failure.elim (.ok .root) fun f => .error f.error, t) ∧
      ((Program.ofTokens tokens).failure = none →
        Grows ⟨#[]⟩ (Program.sapling (Program.ofTokens tokens).items) .root t) := by
  obtain ⟨t, hrun, hgrows⟩ := Build.program_eq (.ofTokens tokens) (grows_push ⟨#[]⟩ .root ⟨"<<ROOT>>", {}⟩ nofun)
  refine ⟨t, ?_, hgrows⟩
  have hempty : empty = (push ⟨#[]⟩ .root ⟨"<<ROOT>>", {}⟩).2 := rfl
  rw [parse, hempty, hrun, Program.ofTokens]
  cases (Program.read (.ofTokens tokens)).failure with
  | none => rfl
  | some f => rfl

theorem parse_grows {n : NodeId} (h : empty.parse tokens = (.ok n, t)) :
    n = .root ∧ Grows ⟨#[]⟩ (Program.sapling (Program.ofTokens tokens).items) .root t := by
  obtain ⟨u, hu, hgrows⟩ := parse_eq tokens
  rw [hu] at h
  cases hf : (Program.ofTokens tokens).failure with
  | none =>
    rw [hf] at h
    cases h
    exact ⟨rfl, hgrows hf⟩
  | some f =>
    rw [hf] at h
    cases h

theorem parse_shows {n : NodeId} (h : empty.parse tokens = (.ok n, t)) :
    n = .root ∧ t.Shows none 0 (Program.sapling (Program.ofTokens tokens).items) ∧
      t.size = (Program.sapling (Program.ofTokens tokens).items).size := by
  obtain ⟨hroot, hgrows⟩ := parse_grows h
  exact ⟨hroot, hgrows.bears.shows.1, hgrows.size_eq.trans (Nat.zero_add _)⟩

theorem parse_ok_iff :
    (∃ n t, empty.parse tokens = (.ok n, t)) ↔ (Program.ofTokens tokens).failure = none := by
  obtain ⟨u, hu, -⟩ := parse_eq tokens
  rw [hu]
  cases (Program.ofTokens tokens).failure with
  | none => simp
  | some f => simp

theorem failure_of_parse (h : empty.parse tokens = (.error e, t)) :
    ∃ f, (Program.ofTokens tokens).failure = some f ∧ e = .unexpected f.expected f.stop.current := by
  obtain ⟨u, hu, -⟩ := parse_eq tokens
  rw [hu] at h
  cases hf : (Program.ofTokens tokens).failure with
  | none =>
    rw [hf] at h
    cases h
  | some f =>
    rw [hf] at h
    cases h
    exact ⟨f, rfl, rfl⟩

theorem unexpected_of_parse (h : empty.parse tokens = (.error e, t)) :
    ∃ expected found, e = .unexpected expected found := by
  obtain ⟨f, -, he⟩ := failure_of_parse h
  exact ⟨_, _, he⟩

end Tree

theorem eq_ok_of_toOption {ε α : Type} {m : Except ε α} {x : α} (h : m.toOption = some x) : m = .ok x := by
  cases m with
  | error e => cases h
  | ok y =>
    cases h
    rfl

/-- What is decided of a result, beside what holds of every result. -/
theorem exists_ok_and {ε α : Type} {m : Except ε α} {P Q : α → Prop} [DecidablePred P]
    (hP : m.toOption.any (fun x => P x) = true) (hQ : ∀ {x}, m = .ok x → Q x) : ∃ x, m = .ok x ∧ P x ∧ Q x := by
  obtain ⟨x, hx, hcheck⟩ := (Option.any_eq_true _ _).mp hP
  have hx := eq_ok_of_toOption hx
  exact ⟨x, hx, of_decide_eq_true hcheck, hQ hx⟩

namespace Tree

/-- The text is read as a whole, and its tokens and its tree pass a check. -/
def passes (text : String) (check : TokenStream → Tree → Bool) : Bool :=
  (TokenStream.ofText "t" text).toOption.any fun s =>
    (empty.parse s.tokens).1.toOption.isSome && check s (empty.parse s.tokens).2

theorem exists_of_passes {text : String} {check : TokenStream → Tree → Bool} (h : passes text check = true) :
    ∃ s root t, TokenStream.ofText "t" text = .ok s ∧ empty.parse s.tokens = (.ok root, t) ∧ check s t = true := by
  simp only [passes, Option.any_eq_true, Bool.and_eq_true, Option.isSome_iff_exists] at h
  obtain ⟨s, hs, ⟨root, hroot⟩, hcheck⟩ := h
  exact ⟨s, root, _, eq_ok_of_toOption hs, Prod.ext (eq_ok_of_toOption hroot) rfl, hcheck⟩

/-- What is decided of a text that is read, beside what holds of every such text. -/
theorem exists_parse_and {text : String} {P : TokenStream → Tree → Prop} [∀ s t, Decidable (P s t)]
    {Q : TokenStream → NodeId → Tree → Prop} (hP : passes text (fun s t => P s t) = true)
    (hQ : ∀ {s root t}, TokenStream.ofText "t" text = .ok s → empty.parse s.tokens = (.ok root, t) → Q s root t) :
    ∃ s root t, TokenStream.ofText "t" text = .ok s ∧ empty.parse s.tokens = (.ok root, t) ∧ P s t ∧ Q s root t := by
  obtain ⟨s, root, t, hs, hparse, hcheck⟩ := exists_of_passes hP
  exact ⟨s, root, t, hs, hparse, of_decide_eq_true hcheck, hQ hs hparse⟩

theorem exists_parse_and_and {text : String} {P P' : TokenStream → Tree → Prop} [∀ s t, Decidable (P s t)]
    [∀ s t, Decidable (P' s t)] {Q : TokenStream → NodeId → Tree → Prop} (hP : passes text (fun s t => P s t ∧ P' s t) = true)
    (hQ : ∀ {s root t}, TokenStream.ofText "t" text = .ok s → empty.parse s.tokens = (.ok root, t) → Q s root t) :
    ∃ s root t, TokenStream.ofText "t" text = .ok s ∧ empty.parse s.tokens = (.ok root, t) ∧ P s t ∧ P' s t ∧ Q s root t := by
  simpa only [and_assoc] using exists_parse_and hP hQ

end Tree

end OcCompiler
