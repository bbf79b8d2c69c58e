import OcCompiler.Proofs.Resolution
import OcCompiler.Proofs.StmtCode

/-! Emission keeps the meaning of the core. A body ends as the goto program exactly if it ends as it is nested, with the
    same value and the same variables, from any cells and under any meaning of the operators. -/

namespace OcCompiler

open Oil NameStep Analysis

theorem NameStep.variableOf?_append {before : List NameDecl} {x : Lexeme} {earlier : List NameStep}
    (hx : x ∉ earlier.map lexeme) (steps : List NameStep) :
    variableOf? before x (earlier ++ steps) = variableOf? (before ++ declared earlier) x steps := by
  induction earlier generalizing before with
  | nil => rw [List.nil_append, declared, List.filterMap_nil, List.append_nil]
  | cons s earlier ih =>
    rw [List.map_cons, List.mem_cons, not_or] at hx
    obtain ⟨hs, hx⟩ := hx
    cases s with
    | declare d =>
      have hne : d.name ≠ x := Ne.symm hs
      rw [List.cons_append, variableOf?, if_neg hne, ih hx, List.append_assoc]
      rfl
    | refer blocks y n =>
      have hne : y ≠ x := Ne.symm hs
      rw [List.cons_append, variableOf?, if_neg hne, ih hx]
      rfl

namespace Emission

variable {name text : String} {m : Module} (e : Emission name text m)

theorem follows : e.context.Follows (Program.variableOf? e.items) (Program.nameSteps e.items) := by
  intro s hs
  obtain ⟨earlier, later, hsteps⟩ := List.append_of_mem hs
  obtain ⟨next, htracks⟩ := Program.tracks e.items #[]
  have hfresh : s.lexeme ∉ earlier.map lexeme := by
    have hnodup : ((Program.nameSteps e.items).map lexeme).Nodup := Program.nodup_lexemes e.lexed e.parsed
    rw [hsteps, List.map_append, List.map_cons] at hnodup
    exact fun hx => (List.nodup_append.mp hnodup).2.2 _ hx _ List.mem_cons_self rfl
  rw [Program.variableOf?, hsteps, variableOf?_append hfresh, List.nil_append]
  cases s with
  | declare d =>
    have hblock := (htracks.marked d (List.mem_filterMap.mpr ⟨_, hs, rfl⟩)).1
    rw [variableOf?, lexeme, if_pos rfl, NameDecl.toVariable, ← hblock]
    rfl
  | refer blocks x n =>
    obtain ⟨d, id, hbinding, hdecoration, -⟩ := Program.resolved_of_quiet e.quiet hsteps
    have hblock : (e.context.analysis.decoration n).block = d.block := congrArg Decoration.block hdecoration
    rw [variableOf?, lexeme, if_pos rfl, hbinding, Option.map_some, NameDecl.toVariable, NameDecl.text_of_binding hbinding,
      ← hblock]
    rfl

end Emission

variable {V : Type} {M : Meaning V} {ρ : Lexeme → Option Variable} {code : List Instruction}

/-- The code ends exactly as the body does: with which value and in which store, given any cells to start from. -/
def CarriesOut (M : Meaning V) (ρ : Lexeme → Option Variable) (code : List Instruction) (body : List Stmt) : Prop :=
  ∀ (μ : Cells V) (r : Option V) (τ : Store V),
    (∃ ν, Terminates M code μ r ν ∧ ν.store = τ) ↔ ∃ x, Stmt.behaviourAll M ρ body μ.store x τ ∧ x.value = r

theorem CarriesOut.of_realizes {body : List Stmt} (h : Realizes M code (code ++ []) [] (Stmt.behaviourAll M ρ body)) :
    CarriesOut M ρ code body := by
  rw [List.append_nil] at h
  intro μ r τ
  constructor
  · rintro ⟨ν, ⟨n, hruns⟩, rfl⟩
    rcases h.back hruns with hreturn | ⟨n', μ', -, hnext, hend⟩
    · exact ⟨_, hreturn, rfl⟩
    · cases hend with
      | done hresult =>
        cases hresult
        exact ⟨_, hnext, rfl⟩
      | step hstep => cases hstep
  · rintro ⟨x, hrun, rfl⟩
    cases x with
    | next =>
      obtain ⟨μ', rfl, hleads⟩ := h.next hrun
      exact ⟨μ', hleads 0 none μ' (.done rfl), rfl⟩
    | returns v =>
      obtain ⟨n, ν, rfl, hruns⟩ := h.returns hrun
      exact ⟨ν, ⟨n, hruns⟩, rfl⟩

theorem Oil.Cells.exists_store (σ : Store V) : ∃ μ : Cells V, μ.store = σ := by
  have hinj : Function.Injective Variable.text := fun x y => Variable.text_inj
  exact ⟨Function.extend Variable.text σ fun _ => σ default, funext fun x => hinj.extend_apply σ _ x⟩

namespace Item

def body? : Item → Option (List Stmt)
  | .function _ _ _ _ body => some body
  | _ => none

theorem map_entry (k : Nat) (is : List Item) : (entry k is).map (·.2) = is.filterMap stmt? := by
  induction is generalizing k with
  | nil => rfl
  | cons i is ih =>
    cases i with
    | stmt s => exact congrArg (s :: ·) (ih _)
    | struct | function | prototype => exact ih _

theorem forall₂_bodies {R : List Stmt → List Instruction → Prop} {ps : List (Nat × Item)} {fs : List Function}
    (h : List.Forall₂ (fun p f => ∃ body, p.2.body? = some body ∧ R body f.body) ps fs) :
    List.Forall₂ R (ps.filterMap (·.2.body?)) (fs.map (·.body)) := by
  induction h with
  | nil => exact .nil
  | cons hf _ ih =>
    obtain ⟨body, hbody, hR⟩ := hf
    rw [List.filterMap_cons, hbody, List.map_cons]
    exact .cons hR ih

end Item

/-- The bodies of the functions of a program, and behind them the statements outside all functions. -/
def Program.bodies (items : List Item) : List (List Stmt) := items.filterMap Item.body? ++ [items.filterMap Item.stmt?]

namespace Emission

variable {name text : String} {m : Module} (e : Emission name text m) {i : Item} {j : Nat}

include e in
theorem nodup_labels_of_mem (h : code ∈ m.bodies) : (labels code).Nodup := (List.nodup_flatMap.mp e.nodup_labels).1 code h

theorem spelled (h : (j, i) ∈ Item.placed 1 e.items) : ∀ t ∈ i.tokens, t.Spelled := fun _ ht =>
  Program.spelled_of_mem_tokens e.lexed e.parsed (List.mem_flatMap.mpr ⟨i, Item.mem_of_mem_placed h, ht⟩)

theorem follows_item (h : (j, i) ∈ Item.placed 1 e.items) :
    ∃ number, e.context.Follows (Program.variableOf? e.items) (i.nameSteps number j) := by
  obtain ⟨number, hsteps⟩ := Item.nameSteps_of_mem_placed h
  exact ⟨number, fun s hs => e.follows s (hsteps s hs)⟩

theorem function_carriedOut {p : Nat × Item} {f : Function} (hp : p ∈ e.functionItems) (hf : f ∈ m.functions)
    (h : Item.EmittedAs e.context p f) : ∃ body, p.2.body? = some body ∧
      (Stmt.isCoreAll body = true → CarriesOut M (Program.variableOf? e.items) f.body body) := by
  obtain ⟨d, paren, params, brace, body, next, hitem, hbody, -⟩ := h.body_emitted
  obtain ⟨j, i⟩ := p
  cases hitem
  refine ⟨body, rfl, fun hcore => .of_realizes ?_⟩
  have hplaced := (List.mem_filter.mp hp).1
  obtain ⟨number, hnames⟩ := e.follows_item hplaced
  rw [Item.nameSteps, Context.Follows, List.forall_mem_cons, List.forall_mem_append] at hnames
  have hspelled (t : Token) (ht : t ∈ Stmt.tokensAll body) : t.Spelled := e.spelled hplaced t (by simp [Item.tokens, ht])
  have hnodup := e.nodup_labels_of_mem (List.mem_append_left _ (List.mem_map_of_mem hf))
  rw [hbody] at hnodup ⊢
  exact Stmt.realizesAll body hnodup hcore hnames.2.2 hspelled (by simp)

theorem entry_carriedOut (hcore : Stmt.isCoreAll (e.items.filterMap Item.stmt?) = true) :
    CarriesOut M (Program.variableOf? e.items) m.entry (e.items.filterMap Item.stmt?) := by
  obtain ⟨next, hentry, -⟩ := e.entry_emitted
  have hnodup := e.nodup_labels_of_mem (List.mem_append_right _ (List.mem_singleton_self m.entry))
  rw [hentry] at hnodup ⊢
  rw [← Item.map_entry 1] at hcore ⊢
  refine .of_realizes (Stmt.realizesEach hnodup hcore ?_ ?_ ?_)
  · intro p hp
    obtain ⟨j, i, hi, s, rfl, rfl⟩ := Item.mem_entry_iff.mp hp
    exact ⟨globalBlock, [], e.follows_item hi⟩
  · intro p hp
    obtain ⟨j, i, hi, s, rfl, rfl⟩ := Item.mem_entry_iff.mp hp
    exact e.spelled hi
  · simp

theorem bodies_carriedOut : List.Forall₂
    (fun body code => Stmt.isCoreAll body = true → CarriesOut M (Program.variableOf? e.items) code body)
    (Program.bodies e.items) m.bodies := by
  have hnone (i : Item) (hi : i.isFunction = false) : i.body? = none := by
    cases i with
    | function => cases hi
    | struct | prototype | stmt => rfl
  refine List.rel_append ?_ (.cons e.entry_carriedOut .nil)
  rw [← Item.filterMap_placed hnone 1, ← functionItems]
  refine Item.forall₂_bodies ?_
  obtain ⟨hlength, hemitted⟩ := List.forall₂_iff_zip.mp e.functions_emitted
  refine List.forall₂_iff_zip.mpr ⟨hlength, fun hmem => ?_⟩
  obtain ⟨hp, hf⟩ := List.of_mem_zip hmem
  exact e.function_carriedOut hp hf (hemitted hmem)

end Emission

/-- Emission keeps the meaning of the core. If there is nothing to complain about a text, it has a module with code for
    each body. From any cells, the code of a body of the core ends with a value and with a store of the variables exactly
    if the body does so as it is nested; and the cells may hold any store at the start. -/
theorem Compilation.terminates_iff {V : Type} (M : Meaning V) {name text : String} {c : Compilation}
    (h : ofText name text .emit = .ok c) (hread : c.syntaxError? = none) (hlog : c.log = #[]) :
    ∃ s items m, TokenStream.ofText name text = .ok s ∧ items = (Program.ofTokens s.tokens).items ∧ c.oil = some m ∧
      (∀ σ : Store V, ∃ μ : Cells V, μ.store = σ) ∧
      List.Forall₂ (fun body code => Stmt.isCoreAll body = true → CarriesOut M (Program.variableOf? items) code body)
        (Program.bodies items) m.bodies := by
  obtain ⟨m, hm⟩ := exists_oil h hread hlog
  obtain ⟨e⟩ := emission_of_oil h hm
  exact ⟨e.stream, e.items, m, e.lexed, rfl, hm, Cells.exists_store, e.bodies_carriedOut⟩

/-- A loop up to ten, which is written with a leading zero, around a variable that hides the one that is counted up. -/
def Compilation.countingUp : String :=
  "int f(int n) \x7b while (n < 010) \x7b n = n + 1; int n = 0; \x7d return n; \x7d"

theorem Compilation.terminates_iff_loop :
    ∃ c s items m body code,
      ofText "t" countingUp .emit = .ok c ∧ c.syntaxError? = none ∧ c.log = #[] ∧
      TokenStream.ofText "t" countingUp = .ok s ∧ items = (Program.ofTokens s.tokens).items ∧ c.oil = some m ∧ (body, code) ∈ (Program.bodies items).zip m.bodies ∧
      Stmt.isCoreAll body = true ∧ CarriesOut .integers (Program.variableOf? items) code body ∧
      (∃ ν, Terminates .integers code (fun _ => 9) (some 10) ν) ∧
      ∃ x τ, Stmt.behaviourAll .integers (Program.variableOf? items) body (fun _ => 9) x τ ∧ x.value = some 10 := by
  have hquiet : (ofText "t" countingUp .emit).toOption.map (fun c => (c.syntaxError?.isNone, c.log.isEmpty)) =
      some (true, true) := by
    decide +kernel
  have hcore : (TokenStream.ofText "t" countingUp).toOption.map (fun s => (Program.bodies (Program.ofTokens s.tokens).items).map Stmt.isCoreAll) = some [true, true] := by
    decide +kernel
  have hrun : (module? "t" countingUp).map (fun m => m.bodies.map fun code => (run? .integers code 9 code fun _ => 9).map (·.1)) = some [some (some 10), none] := by
    decide +kernel
  obtain ⟨m, hm, hresults⟩ := Option.map_eq_some_iff.mp hrun
  obtain ⟨c, hc, hoil⟩ := module?_eq_some_iff.mp hm
  rw [hc] at hquiet
  obtain ⟨hread, hlog⟩ := Prod.mk.inj (Option.some.inj hquiet)
  have hread := Option.isNone_iff_eq_none.mp hread
  have hlog := Array.isEmpty_iff.mp hlog
  obtain ⟨s, items, m', hs, hitems, hoil', -, hall⟩ := terminates_iff .integers hc hread hlog
  cases hoil.symm.trans hoil'
  rw [hs] at hcore
  have hcore : (Program.bodies items).map Stmt.isCoreAll = [true, true] := hitems ▸ Option.some.inj hcore
  obtain ⟨body, bodies, hbodies, hbody, -⟩ := List.map_eq_cons_iff.mp hcore
  obtain ⟨code, codes, hcodes, hcode, -⟩ := List.map_eq_cons_iff.mp hresults
  have hpair : (body, code) ∈ (Program.bodies items).zip m.bodies := by
    rw [hbodies, hcodes]
    exact List.mem_cons_self
  have hcarries := (List.forall₂_iff_zip.mp hall).2 hpair hbody
  obtain ⟨⟨r, ν⟩, hend, rfl⟩ := Option.map_eq_some_iff.mp hcode
  have hends : Terminates .integers code (fun _ => 9) (some 10) ν := ⟨9, runs_iff.mpr hend⟩
  obtain ⟨x, hx, hvalue⟩ := (hcarries _ _ _).mp ⟨ν, hends, rfl⟩
  exact ⟨c, s, items, m, body, code, hc, hread, hlog, hs, hitems, hoil, hpair, hbody, hcarries, ⟨ν, hends⟩, x, ν.store,
    hx, hvalue⟩

end OcCompiler
