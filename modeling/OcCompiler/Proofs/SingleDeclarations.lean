import OcCompiler.Proofs.TopLevelNames
import OcCompiler.Proofs.VoidOperands

/-! A variable has a single declaration: in a well-formed program the declarations of a name in a block are one
    variable, or a prototype of a function and its definition. -/

namespace OcCompiler

open NameStep

variable {ds : List NameDecl} {params : List Decl} {block next : Nat} {Γ Γ' : Env}

namespace NameDecl

def isVariable (d : NameDecl) : Bool := !d.attrs.roles.function

def Apart (d e : NameDecl) : Prop :=
  d.block = e.block → d.name.text = e.name.text → d.isVariable = false ∧ e.isVariable = false

theorem first_of_apart {ds : List NameDecl} (h : ds.Pairwise Apart) {d : NameDecl} (hd : d ∈ ds) (hvar : d.isVariable = true) :
    first ds d.block d.name.text = some d := by
  induction ds with
  | nil => cases hd
  | cons e ds ih =>
    obtain ⟨he, hds⟩ := List.pairwise_cons.mp h
    rcases List.mem_cons.mp hd with rfl | hd
    · exact List.find?_cons_of_pos (isOf_iff.mpr ⟨rfl, rfl⟩)
    · have hother : e.isOf d.block d.name.text = false := by
        refine Bool.eq_false_iff.mpr fun hof => ?_
        obtain ⟨hblock, hname⟩ := isOf_iff.mp hof
        rw [(he d hd hblock hname).2] at hvar
        cases hvar
      rw [first, List.find?_cons_of_neg (by rw [hother]; exact Bool.false_ne_true)]
      exact ih hds hd

end NameDecl

section Blocks

def Decl.variableOf (block : Nat) (p : Nat × Decl) : NameDecl := p.2.declared block p.1 { var := true, lvalue := true }

theorem Stmt.declared_varDecl {d : Decl} {equals : Lexeme} {init : Expr} {block next k : Nat} {outer : List Nat} :
    NameStep.declared ((Stmt.varDecl d equals init).nameSteps block outer next k) = [Decl.variableOf block (k, d)] := by
  rw [nameSteps, declared_append, Expr.declared_nameSteps]
  rfl

mutual

theorem Stmt.block_of_mem (s : Stmt) {block next k : Nat} {outer : List Nat} {d : NameDecl}
    (h : d ∈ NameStep.declared (s.nameSteps block outer next k)) :
    (∃ p ∈ s.declared k, d = Decl.variableOf block p) ∨ next ≤ d.block ∧ d.block < next + s.blocks := by
  cases s with
  | block brace body =>
    rw [nameSteps] at h
    rw [blocks]
    rcases Stmt.block_of_memAll body h with hd | hd <;> omega
  | empty | returnVoid =>
    rw [nameSteps] at h
    cases h
  | varDecl decl equals init =>
    rw [declared_varDecl] at h
    exact .inl ⟨(k, decl), List.mem_singleton_self _, List.mem_singleton.mp h⟩
  | whileLoop mark cond body | ifThen mark cond body =>
    rw [nameSteps, declared_append, Expr.declared_nameSteps] at h
    rw [declared, blocks]
    exact Stmt.block_of_mem body h
  | ifElse mark cond yes no =>
    rw [nameSteps, declared_append, Expr.declared_nameSteps, declared_append, List.nil_append] at h
    rw [declared, blocks]
    rcases List.mem_append.mp h with h | h
    · rcases Stmt.block_of_mem yes h with ⟨p, hp, rfl⟩ | hd
      · exact .inl ⟨p, List.mem_append_left _ hp, rfl⟩
      · exact .inr (by omega)
    · rcases Stmt.block_of_mem no h with ⟨p, hp, rfl⟩ | hd
      · exact .inl ⟨p, List.mem_append_right _ hp, rfl⟩
      · exact .inr (by omega)
  | returnValue mark value | expr e =>
    rw [nameSteps, Expr.declared_nameSteps] at h
    cases h

theorem Stmt.block_of_memAll (ss : List Stmt) {block next k : Nat} {outer : List Nat} {d : NameDecl}
    (h : d ∈ NameStep.declared (nameStepsAll block outer next k ss)) :
    d.block = block ∨ next ≤ d.block ∧ d.block < next + blocksAll ss := by
  match ss with
  | [] => cases h
  | s :: ss =>
    rw [nameStepsAll, declared_append] at h
    rw [blocksAll]
    rcases List.mem_append.mp h with h | h
    · rcases Stmt.block_of_mem s h with ⟨p, -, rfl⟩ | hd
      · exact .inl rfl
      · exact .inr (by omega)
    · rcases Stmt.block_of_memAll ss h with hd | hd
      · exact .inl hd
      · exact .inr (by omega)

end

theorem Decl.of_mem_paramSteps {ds : List Decl} {block k : Nat} {d : NameDecl}
    (h : d ∈ NameStep.declared (paramSteps block k ds)) :
    d.block = block ∧ d.isVariable = true ∧ ∃ p ∈ ds, d.name = p.name := by
  induction ds generalizing k with
  | nil => cases h
  | cons p ds ih =>
    rcases List.mem_cons.mp h with rfl | h
    · exact ⟨rfl, rfl, p, List.mem_cons_self, rfl⟩
    · obtain ⟨hblock, hvar, q, hq, hname⟩ := ih h
      exact ⟨hblock, hvar, q, List.mem_cons_of_mem _ hq, hname⟩

/-- An item declares global names, and all others in blocks of its own. The variables among its global names are those of
    a statement. -/
theorem Item.block_of_mem {i : Item} {next k : Nat} {d : NameDecl} (h : d ∈ NameStep.declared (i.nameSteps next k)) :
    d.block = globalBlock ∧ (d.isVariable = true → ∃ p ∈ i.declared k, d = Decl.variableOf globalBlock p) ∨
      next ≤ d.block ∧ d.block < next + i.blocks := by
  cases i with
  | struct => cases h
  | function decl paren params brace body =>
    rw [blocks]
    rcases List.mem_cons.mp h with rfl | h
    · exact .inl ⟨rfl, by rintro ⟨⟩⟩
    · rw [List.filterMap_append] at h
      rcases List.mem_append.mp h with h | h
      · have hblock := (Decl.of_mem_paramSteps h).1
        exact .inr (by omega)
      · rcases Stmt.block_of_memAll body h with hblock | hblock <;> exact .inr (by omega)
  | prototype decl paren params semicolon =>
    rw [blocks]
    rcases List.mem_cons.mp h with rfl | h
    · exact .inl ⟨rfl, by rintro ⟨⟩⟩
    · have hblock := (Decl.of_mem_paramSteps h).1
      exact .inr (by omega)
  | stmt s =>
    rw [blocks]
    rcases s.block_of_mem h with ⟨p, hp, rfl⟩ | hblock
    · exact .inl ⟨rfl, fun _ => ⟨p, hp, rfl⟩⟩
    · exact .inr hblock

theorem Item.global_of_mem {is : List Item} {next k : Nat} {d : NameDecl}
    (h : d ∈ NameStep.declared (nameStepsAll next k is)) (hnext : globalBlock < next) (hglobal : d.block = globalBlock)
    (hvar : d.isVariable = true) : ∃ p ∈ declaredAll k is, d = Decl.variableOf globalBlock p := by
  induction is generalizing next k with
  | nil => cases h
  | cons i is ih =>
    rw [nameStepsAll, declared_append] at h
    rcases List.mem_append.mp h with h | h
    · rcases block_of_mem h with ⟨-, hd⟩ | hblock
      · obtain ⟨p, hp, hd⟩ := hd hvar
        exact ⟨p, List.mem_append_left _ hp, hd⟩
      · omega
    · obtain ⟨p, hp, hd⟩ := ih h (by omega)
      exact ⟨p, List.mem_append_right _ hp, hd⟩

end Blocks

/-! ### What environments know of declarations -/

def Env.Has (Γ : Env) (x : String) (isVar : Bool) : Prop :=
  ∃ entry, Γ.inner.lookup x = some entry ∧ (isVar = true → ∃ τ, entry = .var τ)

/-- The declarations so far are apart and belong to blocks below `next`, and the environment has those of the innermost
    block. -/
structure Env.Knows (Γ : Env) (block next : Nat) (ds : List NameDecl) : Prop where
  apart : ds.Pairwise NameDecl.Apart
  below : ∀ d ∈ ds, d.block < next
  has : ∀ d ∈ ds, d.block = block → Γ.Has d.name.text d.isVariable

namespace Env.Knows

variable {Γ Γ' : Env} {block next next' around : Nat} {ds ds' : List NameDecl} {d : NameDecl}

theorem declare (h : Γ.Knows block next ds) (hblock : d.block = block) (hnext : block < next)
    (hkept : ∀ x isVar, Γ.Has x isVar → Γ'.Has x isVar) (hnew : Γ'.Has d.name.text d.isVariable)
    (hapart : ∀ e ∈ ds, e.Apart d) : Γ'.Knows block next (ds ++ [d]) where
  apart := List.pairwise_append.mpr
    ⟨h.apart, List.pairwise_singleton _ _, fun e he => List.forall_mem_singleton.mpr (hapart e he)⟩
  below := List.forall_mem_append.mpr ⟨h.below, List.forall_mem_singleton.mpr (hblock ▸ hnext)⟩
  has := List.forall_mem_append.mpr
    ⟨fun e he heq => hkept _ _ (h.has e he heq), List.forall_mem_singleton.mpr fun _ => hnew⟩

theorem bind_free (h : Γ.Knows block next ds) (hblock : d.block = block) (hnext : block < next) (entry : Entry)
    (hfree : Γ.inner.lookup d.name.text = none) (hentry : d.isVariable = true → ∃ τ, entry = .var τ) :
    (Γ.bind d.name.text entry).Knows block next (ds ++ [d]) := by
  refine h.declare hblock hnext ?_ ⟨entry, by simp [Env.bind, List.lookup_append, hfree], hentry⟩ ?_
  · rintro x isVar ⟨found, hfound, hvar⟩
    exact ⟨found, by simp [Env.bind, List.lookup_append, hfound], hvar⟩
  · intro e he hsame hname
    obtain ⟨found, hfound, -⟩ := h.has e he (hsame.trans hblock)
    rw [hname, hfree] at hfound
    cases hfound

theorem enter (h : Γ.Knows block next ds) (frame : Frame) : (Γ.enter frame).Knows next (next + 1) ds where
  apart := h.apart
  below d hd := Nat.lt_succ_of_lt (h.below d hd)
  has d hd heq := absurd (h.below d hd) (by omega)

theorem leave (h : Γ.Knows block next ds) (hinner : Γ'.Knows around next' (ds ++ ds')) (hds' : ∀ d ∈ ds', d.block ≠ block) :
    Γ.Knows block next' (ds ++ ds') where
  apart := hinner.apart
  below := hinner.below
  has := List.forall_mem_append.mpr ⟨h.has, fun d hd heq => absurd heq (hds' d hd)⟩

end Env.Knows

mutual

theorem StmtOk.knows {ρ : Option ValueType} {Γ Γ' : Env} (s : Stmt) (h : StmtOk ρ Γ s Γ') {block next : Nat} {ds : List NameDecl}
    (hΓ : Γ.Knows block next ds) (hnext : block < next) (outer : List Nat) (k : Nat) :
    Γ'.Knows block (next + s.blocks) (ds ++ NameStep.declared (s.nameSteps block outer next k)) := by
  cases h with
  | @block _ _ brace body hbody =>
    rw [Stmt.nameSteps, Stmt.blocks]
    have hinner := StmtsOk.knows body hbody (hΓ.enter []) (Nat.lt_succ_self next) (block :: outer) (k + 1)
    rw [show next + (Stmt.blocksAll body + 1) = next + 1 + Stmt.blocksAll body by omega]
    refine hΓ.leave hinner fun d hd => ?_
    rcases Stmt.block_of_memAll body hd with hblock | hblock <;> omega
  | empty | returnVoid =>
    rw [Stmt.nameSteps, NameStep.declared, List.filterMap_nil, List.append_nil, Stmt.blocks]
    exact hΓ
  | @varDecl _ d equals init _ _ _ _ hfree =>
    rw [Stmt.declared_varDecl, Stmt.blocks]
    exact hΓ.bind_free (d := Decl.variableOf block (k, d)) rfl hnext (.var d.type) hfree fun _ => ⟨_, rfl⟩
  | whileLoop _ hbody | ifThen _ hbody =>
    rw [Stmt.nameSteps, declared_append, Expr.declared_nameSteps, List.nil_append, Stmt.blocks]
    exact StmtOk.knows _ hbody hΓ hnext outer _
  | @ifElse _ _ _ mark cond yes no _ _ hyes hno =>
    rw [Stmt.nameSteps, declared_append, Expr.declared_nameSteps, List.nil_append, declared_append, Stmt.blocks,
      ← List.append_assoc, ← Nat.add_assoc]
    have hyes := StmtOk.knows yes hyes hΓ hnext outer (k + 1 + cond.size)
    exact StmtOk.knows no hno hyes (by omega) outer _
  | returnValue | expr =>
    rw [Stmt.nameSteps, Expr.declared_nameSteps, List.append_nil, Stmt.blocks]
    exact hΓ

theorem StmtsOk.knows {ρ : Option ValueType} {Γ Γ' : Env} (ss : List Stmt) (h : StmtsOk ρ Γ ss Γ') {block next : Nat}
    {ds : List NameDecl} (hΓ : Γ.Knows block next ds) (hnext : block < next) (outer : List Nat) (k : Nat) :
    Γ'.Knows block (next + Stmt.blocksAll ss) (ds ++ NameStep.declared (Stmt.nameStepsAll block outer next k ss)) := by
  cases h with
  | nil =>
    rw [Stmt.nameStepsAll, NameStep.declared, List.filterMap_nil, List.append_nil, Stmt.blocksAll]
    exact hΓ
  | @cons _ _ _ s ss hs hss =>
    rw [Stmt.nameStepsAll, declared_append, ← List.append_assoc, Stmt.blocksAll, ← Nat.add_assoc]
    exact StmtsOk.knows ss hss (StmtOk.knows s hs hΓ hnext outer k) (by omega) outer _

end

theorem Decl.names_paramSteps (ds : List Decl) (block k : Nat) :
    (NameStep.declared (paramSteps block k ds)).map (·.name.text) = ds.map (·.name.text) := by
  induction ds generalizing k with
  | nil => rfl
  | cons d ds ih => exact congrArg (d.name.text :: ·) (ih _)

theorem Decl.lookup_params {p : Decl} (h : p ∈ params) :
    ∃ τ, (params.map fun p => (p.name.text, Entry.var p.type)).lookup p.name.text = some (.var τ) := by
  induction params with
  | nil => cases h
  | cons q params ih =>
    rw [List.map_cons, List.lookup_cons]
    split
    · exact ⟨_, rfl⟩
    · rename_i hne
      rcases List.mem_cons.mp h with rfl | h
      · simp at hne
      · exact ih h

theorem Env.Knows.enter_params (h : Γ.Knows block next ds)
    (hdistinct : (params.map (·.name.text)).Nodup) (k : Nat) :
    (Γ.enter (params.map fun p => (p.name.text, .var p.type))).Knows next (next + 1)
      (ds ++ NameStep.declared (Decl.paramSteps next k params)) where
  apart := by
    refine List.pairwise_append.mpr ⟨h.apart, ?_, fun d hd e he hsame => ?_⟩
    · rw [← Decl.names_paramSteps params next k] at hdistinct
      exact (List.pairwise_map.mp hdistinct).imp fun hne _ hname => absurd hname hne
    · have hblock := h.below d hd
      rw [hsame, (Decl.of_mem_paramSteps he).1] at hblock
      exact absurd hblock (Nat.lt_irrefl next)
  below := by
    refine List.forall_mem_append.mpr ⟨fun d hd => Nat.lt_succ_of_lt (h.below d hd), fun d hd => ?_⟩
    rw [(Decl.of_mem_paramSteps hd).1]
    exact Nat.lt_succ_self next
  has := by
    refine List.forall_mem_append.mpr ⟨fun d hd heq => absurd (h.below d hd) (by omega), fun d hd _ => ?_⟩
    obtain ⟨-, -, p, hp, hname⟩ := Decl.of_mem_paramSteps hd
    obtain ⟨τ, hτ⟩ := Decl.lookup_params hp
    exact ⟨.var τ, hname ▸ hτ, fun _ => ⟨τ, rfl⟩⟩

theorem Env.Knows.define (h : Γ.Knows block next ds) {d : NameDecl}
    (hblock : d.block = block) (hnext : block < next) {sig : Signature} (hfunction : d.isVariable = false)
    (hmatch : Γ.inner.lookup d.name.text = some (.function sig true)) :
    (Γ.define d.name.text).Knows block next (ds ++ [d]) := by
  have hkept (x : String) (isVar : Bool) (hx : Γ.Has x isVar) : (Γ.define d.name.text).Has x isVar := by
    obtain ⟨entry, hentry, hvar⟩ := hx
    rw [Env.Has, Item.lookup_define, hentry]
    refine ⟨_, rfl, fun hisVar => ?_⟩
    obtain ⟨τ, rfl⟩ := hvar hisVar
    exact ⟨τ, rfl⟩
  refine h.declare hblock hnext hkept (hkept _ _ ⟨_, hmatch, fun hvar => ?_⟩) fun e he hsame hname => ⟨?_, hfunction⟩
  · rw [hfunction] at hvar
    cases hvar
  · obtain ⟨entry, hentry, hvar⟩ := h.has e he (hsame.trans hblock)
    rw [hname, hmatch] at hentry
    cases hentry
    cases hevar : e.isVariable with
    | false => rfl
    | true =>
      obtain ⟨τ, hτ⟩ := hvar hevar
      cases hτ

theorem Item.knows_body {d : Decl} {body : List Stmt} (hbody : BodyOk Γ d params body)
    (hdistinct : (params.map (·.name.text)).Nodup) (h : Γ.Knows globalBlock next ds)
    (hnext : globalBlock < next) (j k : Nat) :
    Γ.Knows globalBlock (next + (Stmt.blocksAll body + 1)) (ds ++ NameStep.declared
      (Decl.paramSteps next j params ++ Stmt.nameStepsAll next [globalBlock] (next + 1) k body)) := by
  obtain ⟨Γ', hstmts⟩ := hbody.stmts
  have hinner := StmtsOk.knows body hstmts (h.enter_params hdistinct j) (Nat.lt_succ_self next) [globalBlock] k
  rw [List.append_assoc, ← declared_append] at hinner
  rw [show next + (Stmt.blocksAll body + 1) = next + 1 + Stmt.blocksAll body by omega]
  refine h.leave hinner ?_
  rw [declared_append]
  refine List.forall_mem_append.mpr ⟨fun e he => ?_, fun e he => ?_⟩
  · have hblock := (Decl.of_mem_paramSteps he).1
    omega
  · rcases Stmt.block_of_memAll body he with hblock | hblock <;> omega

theorem Item.knows {i : Item} (h : ItemOk Γ i Γ') (hΓ : Γ.Knows globalBlock next ds)
    (hnext : globalBlock < next) (k : Nat) :
    Γ'.Knows globalBlock (next + i.blocks) (ds ++ NameStep.declared (i.nameSteps next k)) := by
  cases h with
  | struct =>
    rw [nameSteps, NameStep.declared, List.filterMap_nil, List.append_nil, blocks]
    exact ⟨hΓ.apart, hΓ.below, hΓ.has⟩
  | @prototype d paren params semicolon hcomplete hfree hparams =>
    have hbound := hΓ.bind_free (d := d.declared globalBlock k { function := true, prototype := true }) rfl hnext
      (.function (d.signature params) true) hfree (by rintro ⟨⟩)
    have hinner := hbound.enter_params hparams.distinct (k + d.size + 1)
    have hleft := hbound.leave hinner fun e he => by
      have hblock := (Decl.of_mem_paramSteps he).1
      omega
    rw [List.append_assoc] at hleft
    exact hleft
  | @function d paren params brace body hcomplete hfree hparams hbody =>
    have hbound := hΓ.bind_free (d := d.declared globalBlock k { function := true }) rfl hnext
      (.function (d.signature params) false) hfree (by rintro ⟨⟩)
    have hleft := Item.knows_body hbody hparams.distinct hbound hnext (k + d.size + 1) (k + d.size + 1 + Decl.sizes params + 1)
    rw [List.append_assoc] at hleft
    exact hleft
  | @announced d paren params brace body hcomplete hmatch hparams hbody =>
    have hbound := hΓ.define (d := d.declared globalBlock k { function := true }) rfl hnext rfl hmatch
    have hleft := Item.knows_body hbody hparams.distinct hbound hnext (k + d.size + 1) (k + d.size + 1 + Decl.sizes params + 1)
    rw [List.append_assoc] at hleft
    exact hleft
  | stmt hs => exact StmtOk.knows _ hs hΓ hnext [] k

theorem Item.knowsAll {is : List Item} (h : ItemsOk Γ is Γ')
    (hΓ : Γ.Knows globalBlock next ds) (hnext : globalBlock < next) (k : Nat) :
    ∃ next', Γ'.Knows globalBlock next' (ds ++ NameStep.declared (nameStepsAll next k is)) := by
  induction is generalizing Γ next ds k with
  | nil =>
    cases h
    rw [nameStepsAll, NameStep.declared, List.filterMap_nil, List.append_nil]
    exact ⟨next, hΓ⟩
  | cons i is ih =>
    cases h with
    | cons hi his =>
      rw [nameStepsAll, declared_append, ← List.append_assoc]
      exact ih his (Item.knows hi hΓ hnext k) (by omega) _

theorem WellFormed.apart {items : List Item} (h : WellFormed items) :
    (NameStep.declared (Program.nameSteps items)).Pairwise NameDecl.Apart := by
  obtain ⟨Γ, hitems⟩ := h
  have hstart : Env.Knows {} globalBlock (globalBlock + 1) [] := ⟨.nil, List.forall_mem_nil _, List.forall_mem_nil _⟩
  obtain ⟨next, hknows⟩ := Item.knowsAll hitems hstart (Nat.lt_succ_self _) 1
  exact hknows.apart

end OcCompiler
