import OcCompiler.Proofs.Describes
import OcCompiler.Proofs.Effect

/-! What an analysis without complaints leaves behind at the nodes of a construct: every expression has a type, and
    every name is tied to the symbol that it stands for. -/

namespace OcCompiler

namespace Analysis

def FreshOn (a : Analysis) (k m : Nat) : Prop := ∀ n : NodeId, k ≤ n.index → n.index < m → a.decoration n = {}

def Names (a : Analysis) (n : NodeId) (x : Lexeme) : Prop :=
  ∃ id, (a.decoration n).symbol = some id ∧ a.symbols.Bound x.text id ∧ (a.symbols.get id).block = (a.decoration n).block

def NamesFunction (a : Analysis) (n : NodeId) (τ : ValueType) : Prop :=
  ∃ announced, a.attrs n = .typed τ { function := true, prototype := announced }

section Stable

variable {a b : Analysis} {n : NodeId} {k m : Nat}

theorem FreshOn.sub {k' m' : Nat} (h : a.FreshOn k m) (hk : k ≤ k' := by omega) (hm : m' ≤ m := by omega) : a.FreshOn k' m' :=
  fun n hn hn' => h n (Nat.le_trans hk hn) (Nat.lt_of_lt_of_le hn' hm)

theorem FreshOn.effect {k' m' : Nat} (h : a.FreshOn k m) (he : Effect k' m' a b) (hdisj : m ≤ k' ∨ m' ≤ k) :
    b.FreshOn k m := fun n hn hn' => by rw [he.decor n (by omega), h n hn hn']

theorem Names.mono {x : Lexeme} (h : a.Names n x) (hsound : a.symbols.Sound) (hs : a.symbols.Evolves b.symbols)
    (hn : b.decoration n = a.decoration n) : b.Names n x := by
  obtain ⟨id, hid, hbound, hblock⟩ := h
  obtain ⟨c, hc, hmem⟩ := hbound
  obtain ⟨hin, -, -, hrole⟩ := hsound.bound c hc _ hmem
  refine ⟨id, by rw [hn, hid], hs.bound _ _ ⟨c, hc, hmem⟩, ?_⟩
  rw [hn, ← hblock, (hs.keeps id hin).block hrole]

theorem NamesFunction.mono {τ : ValueType} (h : a.NamesFunction n τ) (hn : b.decoration n = a.decoration n) :
    b.NamesFunction n τ := by
  unfold NamesFunction attrs at h ⊢
  rwa [hn]

theorem place_fresh (h : a.decoration n = {}) (tag : Tag) :
    a.place n tag = a.decorate n { block := a.symbols.currentBlock, attrs := tag.initialAttributes } := by
  simp [place, h, Attributes.isEmpty, Roles.isEmpty, Roles.none]

theorem attrs_place (h : a.decoration n = {}) (tag : Tag) : (a.place n tag).attrs n = tag.initialAttributes := by
  rw [place_fresh h, attrs, decoration_decorate, if_pos rfl]

@[simp] theorem log_place (a : Analysis) (n : NodeId) (tag : Tag) : (a.place n tag).log = a.log := by
  unfold place
  dsimp only
  split <;> rfl

@[simp] theorem symbols_place (a : Analysis) (n : NodeId) (tag : Tag) : (a.place n tag).symbols = a.symbols := by
  unfold place
  dsimp only
  split <;> rfl

@[simp] theorem symbols_refer (a : Analysis) (n : NodeId) (x : Lexeme) : (a.refer n x).symbols = a.symbols := by
  unfold refer
  split <;> rfl

end Stable

section Verdicts

variable (a : Analysis) (n : NodeId) (v : Verdict)

theorem foldl_report (ds : List Diagnostic) : ds.foldl report a = { a with log := a.log ++ ds.toArray } := by
  induction ds generalizing a with
  | nil => simp
  | cons d ds ih => rw [List.foldl_cons, ih]; simp [report]

theorem log_apply : (a.apply n v).log = a.log ++ v.reports.toArray := by
  unfold apply
  dsimp only
  rw [foldl_report]
  split <;> rfl

theorem log_apply_eq_iff : (a.apply n v).log = a.log ↔ v.reports = [] := by
  rw [log_apply]
  simp

@[simp] theorem symbols_apply : (a.apply n v).symbols = a.symbols := by
  unfold apply
  dsimp only
  rw [foldl_report]
  split <;> rfl

theorem decoration_apply (m : NodeId) (hm : m ≠ n) : (a.apply n v).decoration m = a.decoration m := by
  unfold apply
  dsimp only
  rw [foldl_report]
  split
  · show (Analysis.decorate _ n _).decoration m = _
    rw [decoration_decorate, if_neg hm]
    rfl
  · rfl

theorem attrs_apply : (a.apply n v).attrs n = { a.attrs n with type := v.type.or (a.typeOf n) } := by
  unfold apply
  dsimp only
  rw [foldl_report]
  split
  · rename_i type htype
    rw [htype]
    show ((Analysis.decorate _ n _).decoration n).attrs = _
    rw [decoration_decorate, if_pos rfl]
    rfl
  · rename_i htype
    rw [htype]
    rfl

theorem typeOf_apply : (a.apply n v).typeOf n = v.type.or (a.typeOf n) := by
  rw [typeOf, attrs_apply]

end Verdicts

end Analysis

namespace Expr

open Analysis

mutual

def Settled (a : Analysis) (k : Nat) : Expr → Prop
  | .name x => a.Names ⟨k⟩ x ∧ ∃ τ, a.typeOf ⟨k⟩ = some τ
  | .constant c _ => a.typeOf ⟨k⟩ = some c.type
  | .unary _ _ e => e.Settled a (k + 1) ∧ ∃ τ, a.typeOf ⟨k⟩ = some τ
  | .binary op left _ right =>
    left.Settled a k ∧ right.Settled a (k + left.size + 1) ∧ (∃ τ, a.typeOf ⟨k + left.size⟩ = some τ) ∧
      (op = .assign → (a.attrs (left.topNode k)).roles.lvalue = true)
  | .call callee _ args =>
    a.Names ⟨k⟩ callee ∧ SettledAll a (k + 2) args ∧ ∃ τ, a.typeOf ⟨k + 1⟩ = some τ ∧ a.NamesFunction ⟨k⟩ τ
  | .index base _ subscript =>
    base.Settled a k ∧ subscript.Settled a (k + base.size + 1) ∧ ∃ τ, a.typeOf ⟨k + base.size⟩ = some τ
  | .select object _ _ =>
    object.Settled a k ∧ (∃ tag, a.typeOf (object.topNode k) = some (.struct tag)) ∧ ∃ τ, a.typeOf ⟨k + object.size⟩ = some τ
  | .newStruct _ _ => ∃ τ, a.typeOf ⟨k⟩ = some τ
  | .newString _ count => count.Settled a (k + 1) ∧ ∃ τ, a.typeOf ⟨k⟩ = some τ
  | .newArray element _ count => count.Settled a (k + 2) ∧ a.typeOf ⟨k + 1⟩ = some (.array element.base)

def SettledAll (a : Analysis) (k : Nat) : List Expr → Prop
  | [] => True
  | e :: es => e.Settled a k ∧ SettledAll a (k + e.size) es

end

section Stable

variable {a b : Analysis} (hsound : a.symbols.Sound) (hs : a.symbols.Evolves b.symbols)
include hsound hs

mutual

theorem Settled.mono (e : Expr) {k : Nat} (h : e.Settled a k)
    (hdecor : ∀ n : NodeId, k ≤ n.index → n.index < k + e.size → b.decoration n = a.decoration n) : e.Settled b k := by
  have htype {n : NodeId} (hk : k ≤ n.index) (hm : n.index < k + e.size) : b.typeOf n = a.typeOf n := by
    rw [typeOf, attrs, hdecor n hk hm]
    rfl
  cases e with
  | name x =>
    simp only [size_name] at hdecor htype
    rw [Settled] at h ⊢
    exact ⟨h.1.mono hsound hs (hdecor _ (by dsimp only; omega) (by dsimp only; omega)),
      by rw [htype (by dsimp only; omega) (by dsimp only; omega)]; exact h.2⟩
  | constant c lexeme =>
    simp only [size_constant] at htype
    rw [Settled] at h ⊢
    rw [htype (by dsimp only; omega) (by dsimp only; omega)]
    exact h
  | unary op mark e =>
    simp only [size_unary] at hdecor htype
    rw [Settled] at h ⊢
    rw [htype (by dsimp only; omega) (by dsimp only; omega)]
    exact ⟨Settled.mono e h.1 fun n hn hn' => hdecor n (by omega) (by omega), h.2⟩
  | binary op left mark right =>
    have hbounds := left.topNode_bounds k
    simp only [size_binary] at hdecor htype
    rw [Settled] at h ⊢
    rw [htype (by dsimp only; omega) (by dsimp only; omega), attrs, hdecor (left.topNode k) (by omega) (by omega)]
    exact ⟨Settled.mono left h.1 fun n hn hn' => hdecor n (by omega) (by omega),
      Settled.mono right h.2.1 fun n hn hn' => hdecor n (by omega) (by omega), h.2.2⟩
  | call callee paren args =>
    simp only [size_call] at hdecor htype
    rw [Settled] at h ⊢
    have hcallee := hdecor ⟨k⟩ (by dsimp only; omega) (by dsimp only; omega)
    obtain ⟨hnames, hargs, τ, hτ, hfunction⟩ := h
    refine ⟨hnames.mono hsound hs hcallee, ?_, τ, ?_, hfunction.mono hcallee⟩
    · exact SettledAll.mono args hargs fun n hn hn' => hdecor n (by omega) (by omega)
    · rw [htype (by dsimp only; omega) (by dsimp only; omega), hτ]
  | index base bracket subscript =>
    simp only [size_index] at hdecor htype
    rw [Settled] at h ⊢
    rw [htype (by dsimp only; omega) (by dsimp only; omega)]
    exact ⟨Settled.mono base h.1 fun n hn hn' => hdecor n (by omega) (by omega),
      Settled.mono subscript h.2.1 fun n hn hn' => hdecor n (by omega) (by omega), h.2.2⟩
  | select object dot field =>
    have hbounds := object.topNode_bounds k
    simp only [size_select] at hdecor htype
    rw [Settled] at h ⊢
    rw [htype (by omega) (by omega), htype (by dsimp only; omega) (by dsimp only; omega)]
    exact ⟨Settled.mono object h.1 fun n hn hn' => hdecor n (by omega) (by omega), h.2⟩
  | newStruct mark tag =>
    simp only [size_newStruct] at htype
    rw [Settled] at h ⊢
    rw [htype (by dsimp only; omega) (by dsimp only; omega)]
    exact h
  | newString mark count =>
    simp only [size_newString] at hdecor htype
    rw [Settled] at h ⊢
    rw [htype (by dsimp only; omega) (by dsimp only; omega)]
    exact ⟨Settled.mono count h.1 fun n hn hn' => hdecor n (by omega) (by omega), h.2⟩
  | newArray element mark count =>
    simp only [size_newArray] at hdecor htype
    rw [Settled] at h ⊢
    rw [htype (by dsimp only; omega) (by dsimp only; omega)]
    exact ⟨Settled.mono count h.1 fun n hn hn' => hdecor n (by omega) (by omega), h.2⟩

theorem SettledAll.mono (es : List Expr) {k : Nat} (h : SettledAll a k es)
    (hdecor : ∀ n : NodeId, k ≤ n.index → n.index < k + sizes es → b.decoration n = a.decoration n) :
    SettledAll b k es := by
  match es with
  | [] => exact h
  | e :: es =>
    rw [sizes] at hdecor
    rw [SettledAll] at h ⊢
    exact ⟨Settled.mono e h.1 fun n hn hn' => hdecor n hn (by omega),
      SettledAll.mono es h.2 fun n hn hn' => hdecor n (by omega) (by omega)⟩

end

end Stable

end Expr

def Decl.Settled (a : Analysis) (k : Nat) (d : Decl) : Prop := a.Names ⟨k + 1⟩ d.name ∧ a.typeOf ⟨k + 1⟩ = some d.type

theorem Decl.Settled.mono {a b : Analysis} {d : Decl} {k : Nat} (h : d.Settled a k) (hsound : a.symbols.Sound)
    (hs : a.symbols.Evolves b.symbols) (hdecor : b.decoration ⟨k + 1⟩ = a.decoration ⟨k + 1⟩) : d.Settled b k :=
  ⟨h.1.mono hsound hs hdecor, by rw [Analysis.typeOf, Analysis.attrs, hdecor]; exact h.2⟩

def Decl.SettledAll (a : Analysis) (k : Nat) : List Decl → Prop
  | [] => True
  | d :: ds => d.Settled a k ∧ SettledAll a (k + d.size) ds

theorem Decl.SettledAll.mono {a b : Analysis} {ds : List Decl} {k : Nat} (h : SettledAll a k ds) (hsound : a.symbols.Sound)
    (hs : a.symbols.Evolves b.symbols)
    (hdecor : ∀ n : NodeId, k ≤ n.index → n.index < k + sizes ds → (a.decoration n).symbol.isSome = true →
      b.decoration n = a.decoration n) : SettledAll b k ds := by
  induction ds generalizing k with
  | nil => exact h
  | cons d ds ih =>
    have hd := d.two_le_size
    rw [sizes] at hdecor
    obtain ⟨⟨hnames, htype⟩, hrest⟩ := h
    obtain ⟨id, hid, -⟩ := id hnames
    have hname := hdecor ⟨k + 1⟩ (by dsimp only; omega) (by dsimp only; omega) (by rw [hid]; rfl)
    exact ⟨Decl.Settled.mono ⟨hnames, htype⟩ hsound hs hname,
      ih hrest fun n hn hn' => hdecor n (by omega) (by omega)⟩

namespace Stmt

mutual

def Settled (a : Analysis) (k : Nat) : Stmt → Prop
  | .block _ body => SettledAll a (k + 1) body
  | .varDecl d _ init => d.Settled a k ∧ init.Settled a (k + d.size + 1)
  | .whileLoop _ cond body => cond.Settled a (k + 1) ∧ body.Settled a (k + 1 + cond.size)
  | .ifThen _ cond yes => cond.Settled a (k + 1) ∧ yes.Settled a (k + 1 + cond.size)
  | .ifElse _ cond yes no =>
    cond.Settled a (k + 1) ∧ yes.Settled a (k + 1 + cond.size) ∧ no.Settled a (k + 1 + cond.size + yes.size)
  | .returnValue _ value => value.Settled a (k + 1)
  | .expr e => e.Settled a k
  | .empty _ | .returnVoid _ => True

def SettledAll (a : Analysis) (k : Nat) : List Stmt → Prop
  | [] => True
  | s :: ss => s.Settled a k ∧ SettledAll a (k + s.size) ss

end

section Stable

variable {a b : Analysis} (hsound : a.symbols.Sound) (hs : a.symbols.Evolves b.symbols)
include hsound hs

mutual

theorem Settled.mono (s : Stmt) {k : Nat} (h : s.Settled a k)
    (hdecor : ∀ n : NodeId, k ≤ n.index → n.index < k + s.size → b.decoration n = a.decoration n) : s.Settled b k := by
  cases s with
  | block brace body =>
    rw [size_block] at hdecor
    rw [Settled] at h ⊢
    exact SettledAll.mono body h fun n hn hn' => hdecor n (by omega) (by omega)
  | empty semicolon => rw [Settled]; trivial
  | varDecl d equals init =>
    have hd := d.two_le_size
    rw [size_varDecl] at hdecor
    rw [Settled] at h ⊢
    exact ⟨h.1.mono hsound hs (hdecor _ (by dsimp only; omega) (by dsimp only; omega)),
      h.2.mono hsound hs init fun n hn hn' => hdecor n (by omega) (by omega)⟩
  | whileLoop mark cond body =>
    rw [size_whileLoop] at hdecor
    rw [Settled] at h ⊢
    exact ⟨h.1.mono hsound hs cond fun n hn hn' => hdecor n (by omega) (by omega),
      Settled.mono body h.2 fun n hn hn' => hdecor n (by omega) (by omega)⟩
  | ifThen mark cond yes =>
    rw [size_ifThen] at hdecor
    rw [Settled] at h ⊢
    exact ⟨h.1.mono hsound hs cond fun n hn hn' => hdecor n (by omega) (by omega),
      Settled.mono yes h.2 fun n hn hn' => hdecor n (by omega) (by omega)⟩
  | ifElse mark cond yes no =>
    rw [size_ifElse] at hdecor
    rw [Settled] at h ⊢
    exact ⟨h.1.mono hsound hs cond fun n hn hn' => hdecor n (by omega) (by omega),
      Settled.mono yes h.2.1 fun n hn hn' => hdecor n (by omega) (by omega),
      Settled.mono no h.2.2 fun n hn hn' => hdecor n (by omega) (by omega)⟩
  | returnValue mark value =>
    rw [size_returnValue] at hdecor
    rw [Settled] at h ⊢
    exact h.mono hsound hs value fun n hn hn' => hdecor n (by omega) (by omega)
  | returnVoid mark => rw [Settled]; trivial
  | expr e =>
    rw [Settled] at h ⊢
    exact h.mono hsound hs e hdecor

theorem SettledAll.mono (ss : List Stmt) {k : Nat} (h : SettledAll a k ss)
    (hdecor : ∀ n : NodeId, k ≤ n.index → n.index < k + sizes ss → b.decoration n = a.decoration n) :
    SettledAll b k ss := by
  match ss with
  | [] => exact h
  | s :: ss =>
    rw [sizes] at hdecor
    rw [SettledAll] at h ⊢
    exact ⟨Settled.mono s h.1 fun n hn hn' => hdecor n hn (by omega),
      SettledAll.mono ss h.2 fun n hn hn' => hdecor n (by omega) (by omega)⟩

end

end Stable

end Stmt

end OcCompiler
