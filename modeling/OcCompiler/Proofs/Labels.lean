import OcCompiler.Proofs.Emission
import OcCompiler.Proofs.Places
import OcCompiler.Proofs.Spelling

/-! Labels are well formed: every label is defined once, and every jump goes to a label of its own function. A label is
    made from the place of a token, and places of tokens differ. -/

namespace OcCompiler

open Oil

namespace Oil

def Instruction.label? : Instruction → Option Label
  | .label l => some l
  | _ => none

def Instruction.target? : Instruction → Option Label
  | .jump l | .jumpUnless _ l => some l
  | _ => none

def labels (code : List Instruction) : List Label := code.filterMap Instruction.label?

def targets (code : List Instruction) : List Label := code.filterMap Instruction.target?

/-- The bodies of all functions, of which the entry is the last. -/
def Module.bodies (m : Module) : List (List Instruction) := m.functions.map Function.body ++ [m.entry]

theorem Instruction.Working.label?_eq_none {i : Instruction} (h : i.Working) : i.label? = none := by
  cases i <;> first | rfl | cases h

theorem Instruction.Working.target?_eq_none {i : Instruction} (h : i.Working) : i.target? = none := by
  cases i <;> first | rfl | cases h

@[simp] theorem labels_nil : labels [] = [] := rfl

@[simp] theorem labels_cons (i : Instruction) (code : List Instruction) :
    labels (i :: code) = i.label?.toList ++ labels code := by
  cases h : i.label? <;> simp [labels, h]

@[simp] theorem labels_append (code code' : List Instruction) : labels (code ++ code') = labels code ++ labels code' :=
  List.filterMap_append

@[simp, grind =] theorem targets_nil : targets [] = [] := rfl

@[simp, grind =] theorem targets_cons (i : Instruction) (code : List Instruction) :
    targets (i :: code) = i.target?.toList ++ targets code := by
  cases h : i.target? <;> simp [targets, h]

@[simp, grind =] theorem targets_append (code code' : List Instruction) :
    targets (code ++ code') = targets code ++ targets code' :=
  List.filterMap_append

/-- Some code defines exactly the given labels and goes to no others. -/
structure Defines (code : List Instruction) (ls : List Label) : Prop where
  labels : labels code = ls
  targets : ∀ l ∈ targets code, l ∈ ls

namespace Defines

variable {code code' : List Instruction} {ls ls' : List Label}

theorem nil : Defines [] [] := ⟨rfl, nofun⟩

theorem append (h : Defines code ls) (h' : Defines code' ls') : Defines (code ++ code') (ls ++ ls') := by
  refine ⟨by rw [labels_append, h.labels, h'.labels], fun l hl => ?_⟩
  rw [targets_append] at hl
  rcases List.mem_append.mp hl with hl | hl
  · exact List.mem_append_left _ (h.targets l hl)
  · exact List.mem_append_right _ (h'.targets l hl)

end Defines

end Oil

section Expressions

variable {c : Context}

@[simp] theorem Expr.labels_emitted (e : Expr) (k next : Nat) : labels (e.emitted c k next).code = [] :=
  List.filterMap_eq_nil_iff.mpr fun i hi => (e.working_emitted k next i hi).label?_eq_none

@[simp, grind =] theorem Expr.targets_emitted (e : Expr) (k next : Nat) : targets (e.emitted c k next).code = [] :=
  List.filterMap_eq_nil_iff.mpr fun i hi => (e.working_emitted k next i hi).target?_eq_none

end Expressions

namespace Stmt

mutual

/-- The labels of a statement, in the order in which they are emitted. -/
def labels : Stmt → List Label
  | .block _ body => labelsAll body
  | .whileLoop mark _ body => ⟨.loop, mark.loc⟩ :: (body.labels ++ [⟨.exit, mark.loc⟩])
  | .ifThen mark _ yes => yes.labels ++ [⟨.join, mark.loc⟩]
  | .ifElse mark _ yes no => yes.labels ++ ⟨.otherwise, mark.loc⟩ :: (no.labels ++ [⟨.join, mark.loc⟩])
  | .empty _ | .varDecl .. | .returnValue .. | .returnVoid _ | .expr _ => []

def labelsAll : List Stmt → List Label
  | [] => []
  | s :: ss => s.labels ++ labelsAll ss

end

end Stmt

section Statements

variable {c : Context}

mutual

theorem Stmt.defines_emitted (s : Stmt) (k next : Nat) : Defines (s.emitted c k next).code s.labels := by
  cases s with
  | block brace body =>
    rw [emitted, labels]
    exact Stmt.defines_emittedAll body _ _
  | empty | returnValue | returnVoid | expr =>
    constructor <;> simp [emitted, labels, Instruction.label?, Instruction.target?]
  | varDecl =>
    simp only [emitted, labels]
    split <;> constructor <;> simp [Instruction.label?, Instruction.target?]
  | whileLoop mark cond body | ifThen mark cond body =>
    obtain ⟨hlabels, htargets⟩ := Stmt.defines_emitted body (k + 1 + cond.size) (cond.emitted c (k + 1) next).next
    constructor
    · simp [emitted, labels, Instruction.label?, hlabels]
    · simp only [emitted, labels]
      grind [Instruction.target?]
  | ifElse mark cond yes no =>
    obtain ⟨hyes, hyes'⟩ := Stmt.defines_emitted yes (k + 1 + cond.size) (cond.emitted c (k + 1) next).next
    obtain ⟨hno, hno'⟩ := Stmt.defines_emitted no (k + 1 + cond.size + yes.size) (yes.emitted c (k + 1 + cond.size) (cond.emitted c (k + 1) next).next).next
    constructor
    · simp [emitted, labels, Instruction.label?, hyes, hno]
    · simp only [emitted, labels]
      grind [Instruction.target?]

theorem Stmt.defines_emittedAll (ss : List Stmt) (k next : Nat) : Defines (emittedAll c k next ss).code (labelsAll ss) := by
  match ss with
  | [] => exact .nil
  | s :: ss => exact (Stmt.defines_emitted s _ _).append (Stmt.defines_emittedAll ss _ _)

end

theorem Stmt.defines_emittedEach (ps : List (Nat × Stmt)) (next : Nat) :
    Defines (emittedEach c next ps).code (ps.flatMap fun p => p.2.labels) := by
  induction ps generalizing next with
  | nil => exact .nil
  | cons p ps ih => exact (p.2.defines_emitted _ _).append (ih _)

end Statements

/-- Labels that take their places from tokens, and are all different if the tokens stand at different places. -/
structure LabelsOf (ts : List Token) (ls : List Label) : Prop where
  places : ∀ l ∈ ls, l.loc ∈ ts.map Token.loc
  nodup : (ts.map Token.loc).Nodup → ls.Nodup

namespace LabelsOf

variable {ts us : List Token} {ls ms : List Label}

theorem none : LabelsOf ts [] := ⟨nofun, fun _ => .nil⟩

theorem append (h : LabelsOf ts ls) (h' : LabelsOf us ms) : LabelsOf (ts ++ us) (ls ++ ms) := by
  constructor
  · intro l hl
    rw [List.map_append]
    rcases List.mem_append.mp hl with hl | hl
    · exact List.mem_append_left _ (h.places l hl)
    · exact List.mem_append_right _ (h'.places l hl)
  · intro hnodup
    rw [List.map_append] at hnodup
    obtain ⟨hts, hus, hdisjoint⟩ := List.nodup_append.mp hnodup
    refine List.nodup_append.mpr ⟨h.nodup hts, h'.nodup hus, ?_⟩
    rintro l hl _ hl' rfl
    exact hdisjoint _ (h.places l hl) _ (h'.places l hl') rfl

theorem prefixed (h : LabelsOf ts ls) (us : List Token) : LabelsOf (us ++ ts) ls := none.append h

theorem labelled (h : LabelsOf ts ls) {mark : Token} (kinds : List LabelKind) (hkinds : kinds.Nodup)
    (hms : ms.Perm (kinds.map (Label.mk · mark.loc) ++ ls)) : LabelsOf (mark :: ts) ms := by
  constructor
  · intro l hl
    rw [List.map_cons]
    rcases List.mem_append.mp (hms.mem_iff.mp hl) with hl | hl
    · obtain ⟨kind, -, rfl⟩ := List.mem_map.mp hl
      exact List.mem_cons_self
    · exact List.mem_cons_of_mem _ (h.places l hl)
  · intro hnodup
    rw [List.map_cons] at hnodup
    obtain ⟨hmark, hts⟩ := List.nodup_cons.mp hnodup
    have hown : (kinds.map (Label.mk · mark.loc)).Nodup :=
      hkinds.map fun _ _ heq => congrArg Label.kind heq
    rw [hms.nodup_iff]
    refine List.nodup_append.mpr ⟨hown, h.nodup hts, ?_⟩
    rintro l hl _ hl' rfl
    obtain ⟨kind, -, rfl⟩ := List.mem_map.mp hl
    exact hmark (h.places _ hl')

end LabelsOf

mutual

theorem Stmt.labelsOf_tokens (s : Stmt) : LabelsOf s.tokens s.labels := by
  cases s with
  | block brace body =>
    rw [tokens, labels]
    exact (Stmt.labelsOf_tokensAll body).prefixed [_]
  | empty | varDecl | returnValue | returnVoid | expr =>
    rw [labels]
    exact .none
  | whileLoop mark cond body =>
    rw [tokens, labels]
    refine ((Stmt.labelsOf_tokens body).prefixed cond.tokens).labelled [.loop, .exit] (by decide) ?_
    exact .cons _ (List.perm_append_singleton _ _)
  | ifThen mark cond yes =>
    rw [tokens, labels]
    refine ((Stmt.labelsOf_tokens yes).prefixed cond.tokens).labelled [.join] (by decide) ?_
    exact List.perm_append_singleton _ _
  | ifElse mark cond yes no =>
    rw [tokens, labels]
    refine (((Stmt.labelsOf_tokens yes).append (Stmt.labelsOf_tokens no)).prefixed cond.tokens).labelled
      [.otherwise, .join] (by decide) ?_
    refine List.perm_middle.trans (.cons _ ?_)
    rw [← List.append_assoc]
    exact List.perm_append_singleton _ _

theorem Stmt.labelsOf_tokensAll (ss : List Stmt) : LabelsOf (tokensAll ss) (labelsAll ss) := by
  match ss with
  | [] => exact .none
  | s :: ss =>
    rw [tokensAll, labelsAll]
    exact (Stmt.labelsOf_tokens s).append (Stmt.labelsOf_tokensAll ss)

end

namespace Item

def labels : Item → List Label
  | .function _ _ _ _ body => Stmt.labelsAll body
  | .stmt s => s.labels
  | .struct .. | .prototype .. => []

theorem labelsOf_tokens (i : Item) : LabelsOf i.tokens i.labels := by
  cases i with
  | struct | prototype => exact .none
  | function d paren params brace body =>
    have h := (Stmt.labelsOf_tokensAll body).prefixed
      (d.tokens ++ ⟨.punct '(', paren⟩ :: (Decl.tokensAll params ++ [⟨.punct '\x7b', brace⟩]))
    simpa [tokens, labels] using h
  | stmt s => exact s.labelsOf_tokens

theorem labelsOf_tokensAll (is : List Item) : LabelsOf (Program.tokens is) (is.flatMap labels) := by
  induction is with
  | nil => exact .none
  | cons i is ih => exact i.labelsOf_tokens.append ih

theorem labels_perm (is : List Item) (k : Nat) :
    (((placed k is).filter (·.2.isFunction)).flatMap (fun p => p.2.labels) ++ (entry k is).flatMap fun p => p.2.labels).Perm
      (is.flatMap labels) := by
  induction is generalizing k with
  | nil => exact .nil
  | cons i is ih =>
    have ih := ih (k + i.size)
    cases i with
    | struct | prototype => exact ih
    | function d paren params brace body =>
      have hcons := ih.append_left (labels (.function d paren params brace body))
      rwa [← List.append_assoc] at hcons
    | stmt s => exact (List.perm_append_comm_assoc _ _ _).trans (ih.append_left s.labels)

end Item

namespace Emission

variable {name text : String} {m : Module} (e : Emission name text m)

theorem defines_function {p : Nat × Item} {f : Function} {c : Context} (h : Item.EmittedAs c p f) :
    Defines f.body p.2.labels := by
  obtain ⟨d, paren, params, brace, body, next, hp, hbody, -⟩ := h.body_emitted
  rw [hp, hbody]
  exact Stmt.defines_emittedAll body _ _

theorem labels_functions {c : Context} {ps : List (Nat × Item)} {fs : List Function}
    (h : List.Forall₂ (Item.EmittedAs c) ps fs) :
    fs.flatMap (fun f => labels f.body) = ps.flatMap fun p => p.2.labels := by
  induction h with
  | nil => rfl
  | cons hf _ ih => rw [List.flatMap_cons, List.flatMap_cons, ih, (defines_function hf).labels]

theorem defines_entry : Defines m.entry ((Item.entry 1 e.items).flatMap fun p => p.2.labels) := by
  obtain ⟨next, hentry, -⟩ := e.entry_emitted
  exact hentry ▸ Stmt.defines_emittedEach _ _

theorem labels_perm : (m.bodies.flatMap labels).Perm (e.items.flatMap Item.labels) := by
  have hbodies : m.bodies.flatMap labels = m.functions.flatMap (fun f => labels f.body) ++ labels m.entry := by
    simp [Module.bodies, List.flatMap_map]
  rw [hbodies, labels_functions e.functions_emitted, e.defines_entry.labels]
  exact Item.labels_perm e.items 1

include e in
theorem nodup_labels : (m.bodies.flatMap labels).Nodup :=
  e.labels_perm.nodup_iff.mpr ((Item.labelsOf_tokensAll e.items).nodup (Program.nodup_locs_tokens e.lexed e.parsed))

include e in
theorem targets_defined {body : List Instruction} (hbody : body ∈ m.bodies) : ∀ l ∈ targets body, l ∈ labels body := by
  have hdefines : ∃ ls, Defines body ls := by
    rcases List.mem_append.mp hbody with hbody | hbody
    · obtain ⟨f, hf, rfl⟩ := List.mem_map.mp hbody
      obtain ⟨p, -, hp⟩ := e.exists_of_mem_functions hf
      exact ⟨_, defines_function hp⟩
    · exact ⟨_, List.mem_singleton.mp hbody ▸ e.defines_entry⟩
  obtain ⟨ls, hls⟩ := hdefines
  rw [hls.labels]
  exact hls.targets

end Emission

/-- In the oil of a text no label is defined twice, and every jump goes to a label of the same function. -/
theorem Compilation.labels_wellFormed {name text : String} {last : Phase} {c : Compilation} {m : Module}
    (h : ofText name text last = .ok c) (hm : c.oil = some m) :
    ((m.bodies.flatMap labels).map Label.text).Nodup ∧
      ∀ body ∈ m.bodies, ∀ l ∈ targets body, l.text ∈ (labels body).map Label.text := by
  obtain ⟨e⟩ := emission_of_oil h hm
  constructor
  · exact e.nodup_labels.map fun _ _ heq => Label.text_inj heq
  · intro body hbody l hl
    exact List.mem_map_of_mem (e.targets_defined hbody l hl)

/-- A line marker leads back to the first line of the same file, and the loop there has labels of its own. -/
theorem Compilation.labels_wellFormed_marker :
    ∃ c m, ofText "t" "while (true) ;\n# 1 \"t\"\nwhile (true) if (false) ; else ;\n" .emit = .ok c ∧ c.oil = some m ∧
      (m.bodies.flatMap labels).map Label.text =
        ["while_0_1_0", "break_0_1_0", "while_1_1_0", "else_1_1_13", "fi_1_1_13", "break_1_1_0"] ∧
      ((m.bodies.flatMap labels).map Label.text).Nodup ∧
      ∀ body ∈ m.bodies, ∀ l ∈ targets body, l.text ∈ (labels body).map Label.text := by
  exact exists_module_and (by decide +kernel) labels_wellFormed

end OcCompiler
