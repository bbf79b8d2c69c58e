import OcCompiler.Proofs.Judgement
import OcCompiler.Proofs.Symbols

/-! When a symbol table says the same as an environment: the open scopes bind the names of its blocks to symbols of the
    right kind, and the complete structs are those that it knows. -/

namespace OcCompiler

def Roles.ofParam : Roles := { var := true, param := true, lvalue := true }

structure Roles.IsVariable (r : Roles) : Prop where
  var : r.var = true
  lvalue : r.lvalue = true
  function : r.function = false
  prototype : r.prototype = false
  field : r.field = false

theorem forall₂_imp_of_mem_right {α β : Type} {R S : α → β → Prop} {l : List α} {l' : List β} (h : List.Forall₂ R l l')
    (himp : ∀ a, ∀ b ∈ l', R a b → S a b) : List.Forall₂ S l l' := by
  induction h with
  | nil => exact .nil
  | cons hab _ ih =>
    exact .cons (himp _ _ List.mem_cons_self hab) (ih fun a b hb => himp a b (List.mem_cons_of_mem _ hb))

namespace SymbolTable

def ParamsAre (s : SymbolTable) (params : List (String × ValueType)) (ids : List SymbolId) : Prop :=
  List.Forall₂ (fun p id => id.index < s.size ∧ (s.get id).name = p.1 ∧ (s.get id).attrs = .typed p.2 .ofParam) params ids

def Archived (s : SymbolTable) (ids : List SymbolId) : Prop :=
  ids = [] ∨ ∃ c ∈ s.archive.toList, c.bindings.map (·.2) = ids

def Realizes (s : SymbolTable) (id : SymbolId) : Entry → Prop
  | .var τ => id.index < s.size ∧ ∃ roles : Roles, (s.get id).attrs = .typed τ roles ∧ roles.IsVariable
  | .function sig announced => id.index < s.size ∧
      (s.get id).attrs = .typed sig.result { function := true, prototype := announced } ∧
      ∃ ids, (s.get id).params = some ids ∧ s.ParamsAre sig.params ids ∧ (announced = true → s.Archived ids)

def fieldTypes? (s : SymbolTable) (tag : String) : Option (List (String × Option ValueType)) :=
  (s.struct? tag).bind fun id => (s.get id).fields.map (List.map fun p => (p.1, (s.get p.2).attrs.type))

/-- The symbol stands for an entry. A pending symbol, which is still being made, need not be what its entry says yet. -/
def Stands (s : SymbolTable) (pending : Option (SymbolId × Entry)) (id : SymbolId) (entry : Entry) : Prop :=
  if pending.map (·.1) = some id then pending.map (·.2) = some entry else s.Realizes id entry

def Matches (s : SymbolTable) (pending : Option (SymbolId × Entry)) (frame : Frame) (c : Scope) : Prop :=
  List.Forall₂ (fun p q => p.1 = q.1 ∧ s.Stands pending q.2 p.2) frame c.bindings

section Stable

variable {s s' : SymbolTable} {id : SymbolId}
variable {entry entry' : Entry} {ids : List SymbolId} {pending : Option (SymbolId × Entry)}

theorem ParamsAre.mono {params : List (String × ValueType)} (h : s.ParamsAre params ids)
    (hsize : s.size ≤ s'.size)
    (hvars : ∀ i : SymbolId, i.index < s.size → (s.get i).attrs.roles.var = true → s'.get i = s.get i) :
    s'.ParamsAre params ids := by
  refine List.Forall₂.imp (fun p i ⟨hi, hname, hattrs⟩ => ?_) h
  rw [hvars i hi (by rw [hattrs]; rfl)]
  exact ⟨Nat.lt_of_lt_of_le hi hsize, hname, hattrs⟩

theorem Archived.mono (h : s.Archived ids)
    (harchive : ∀ c ∈ s.archive.toList, c ∈ s'.archive.toList) : s'.Archived ids :=
  h.imp_right fun ⟨c, hc, hids⟩ => ⟨c, harchive c hc, hids⟩

theorem Realizes.mono (h : s.Realizes id entry) (hsize : s.size ≤ s'.size) (hid : s'.get id = s.get id)
    (hvars : ∀ i : SymbolId, i.index < s.size → (s.get i).attrs.roles.var = true → s'.get i = s.get i)
    (harchive : ∀ c ∈ s.archive.toList, c ∈ s'.archive.toList) : s'.Realizes id entry := by
  cases entry with
  | var τ =>
    obtain ⟨hin, roles, hroles⟩ := h
    exact ⟨Nat.lt_of_lt_of_le hin hsize, roles, by rw [hid]; exact hroles⟩
  | function sig announced =>
    obtain ⟨hin, hattrs, ids, hids, hparams, hclosed⟩ := h
    refine ⟨Nat.lt_of_lt_of_le hin hsize, by rw [hid]; exact hattrs, ids, by rw [hid]; exact hids, ?_, fun ha => ?_⟩
    · exact hparams.mono hsize hvars
    · exact (hclosed ha).mono harchive

@[simp] theorem stands_none : s.Stands none id entry ↔ s.Realizes id entry := by simp [Stands]

theorem stands_pending : s.Stands (some (id, entry')) id entry ↔ entry' = entry := by simp [Stands]

theorem stands_other {f : SymbolId} (hid : id ≠ f) :
    s.Stands (some (f, entry')) id entry ↔ s.Realizes id entry := by
  simp [Stands, Ne.symm hid]

theorem Matches.mono {pending' : Option (SymbolId × Entry)} {frame : Frame} {c : Scope}
    (h : s.Matches pending frame c)
    (hmono : ∀ p ∈ c.bindings, ∀ entry, s.Stands pending p.2 entry → s'.Stands pending' p.2 entry) :
    s'.Matches pending' frame c :=
  forall₂_imp_of_mem_right h fun _ q hq hpq => ⟨hpq.1, hmono q hq _ hpq.2⟩

theorem Stands.mono (h : s.Stands pending id entry)
    (hmono : pending.map (·.1) ≠ some id → s.Realizes id entry → s'.Realizes id entry) : s'.Stands pending id entry := by
  unfold Stands at h ⊢
  split at h
  · rename_i hpending
    rwa [if_pos hpending]
  · rename_i hother
    rw [if_neg hother]
    exact hmono hother h

end Stable

end SymbolTable

namespace Env

open SymbolTable

/-- The symbol table says the same as the environment, but for one symbol that may be pending. -/
structure Describes (Γ : Env) (pending : Option (SymbolId × Entry)) (s : SymbolTable) : Prop where
  sound : s.Sound
  frames : List.Forall₂ (s.Matches pending) (Γ.inner :: Γ.outer) s.openScopes
  structs : ∀ tag, s.fieldTypes? tag = (Γ.fields? tag).map (List.map fun p => (p.1, some p.2))
  fields : ∀ p ∈ s.structs, ∀ q ∈ (s.get p.2).fields.getD [], q.2.index < s.size

namespace Describes

variable {Γ : Env} {pending : Option (SymbolId × Entry)} {s s' : SymbolTable}
variable {frame : Frame} {tag : String} {c : Scope}

theorem inner (h : Γ.Describes pending s) : s.Matches pending Γ.inner s.inner := (List.forall₂_cons.mp h.frames).1

theorem outer (h : Γ.Describes pending s) : List.Forall₂ (s.Matches pending) Γ.outer s.outer := (List.forall₂_cons.mp h.frames).2

theorem empty : Env.Describes {} none {} where
  sound := sound_empty
  frames := .cons .nil .nil
  structs _ := rfl
  fields p hp := by cases hp

theorem find?_frame (h : s.Matches none frame c) (x : String) :
    (∀ entry, frame.lookup x = some entry → ∃ id, c.find? x = some id ∧ s.Realizes id entry) ∧
      (frame.lookup x = none → c.find? x = none) := by
  unfold Matches at h
  unfold Scope.find?
  generalize c.bindings = bindings at h
  induction h with
  | nil => simp
  | @cons p q frame bindings hpq _ ih =>
    obtain ⟨y, entry⟩ := p
    obtain ⟨z, id⟩ := q
    obtain ⟨rfl, hreal⟩ := hpq
    rw [List.lookup_cons, List.lookup_cons]
    cases x == y with
    | true =>
      refine ⟨fun e he => ?_, fun he => by cases he⟩
      cases he
      exact ⟨id, rfl, stands_none.mp hreal⟩
    | false => exact ih

theorem lookup (h : Γ.Describes none s) (x : String) :
    (∀ entry, Γ.lookup x = some entry → ∃ id, s.lookup x = some id ∧ s.Realizes id entry) ∧
      (Γ.lookup x = none → s.lookup x = none) := by
  have hframes := h.frames
  unfold Env.lookup SymbolTable.lookup
  generalize Γ.inner :: Γ.outer = frames at hframes
  generalize s.openScopes = scopes at hframes
  induction hframes with
  | nil => simp
  | @cons frame c frames scopes hfirst _ ih =>
    obtain ⟨hsome, hnone⟩ := find?_frame hfirst x
    rw [List.findSome?_cons, List.findSome?_cons]
    cases hx : frame.lookup x with
    | some entry =>
      obtain ⟨id, hid, hreal⟩ := hsome entry hx
      rw [hid]
      refine ⟨fun e he => ?_, fun he => by cases he⟩
      cases he
      exact ⟨id, rfl, hreal⟩
    | none =>
      rw [hnone hx]
      exact ih

theorem lookup_inner_eq_none_iff (h : Γ.Describes pending s) (x : String) :
    Γ.inner.lookup x = none ↔ s.inner.find? x = none := by
  have hinner := h.inner
  unfold Matches at hinner
  unfold Scope.find?
  generalize s.inner.bindings = bindings at hinner
  generalize Γ.inner = frame at hinner
  induction hinner with
  | nil => simp
  | cons hpq _ ih =>
    simp only [List.lookup_eq_none_iff, List.forall_mem_cons, hpq.1] at ih ⊢
    exact and_congr_right fun _ => ih

theorem struct?_of_complete (h : Γ.Describes pending s) (hc : Γ.Complete (.struct tag)) :
    ∃ id, s.struct? tag = some id ∧ (s.get id).isComplete = true := by
  have hfields := h.structs tag
  obtain ⟨fields, hΓ⟩ := Option.isSome_iff_exists.mp hc
  rw [hΓ, fieldTypes?, Option.map_some, Option.bind_eq_some_iff] at hfields
  obtain ⟨id, hid, hfields⟩ := hfields
  obtain ⟨fs, hfs, -⟩ := Option.map_eq_some_iff.mp hfields
  exact ⟨id, hid, by rw [Symbol.isComplete, hfs]; rfl⟩

theorem structOrPlaceholder_of_complete (h : Γ.Describes pending s) {tag : Lexeme} (hc : Γ.Complete (.struct tag.text)) :
    ∃ id, s.structOrPlaceholder tag = (id, s) ∧ (s.get id).isComplete = true := by
  obtain ⟨id, hid, hcomplete⟩ := h.struct?_of_complete hc
  exact ⟨id, by rw [structOrPlaceholder, hid], hcomplete⟩

theorem isComplete_structOrPlaceholder (h : Γ.Describes pending s) {tag : Lexeme} (hc : Γ.fields? tag.text = none) :
    ((s.structOrPlaceholder tag).2.get (s.structOrPlaceholder tag).1).isComplete = false := by
  have hfields := h.structs tag.text
  rw [hc, fieldTypes?, Option.map_none, Option.bind_eq_none_iff] at hfields
  unfold structOrPlaceholder
  split
  · rename_i id hid
    have hnone := hfields id hid
    rw [Option.map_eq_none_iff] at hnone
    simp only [Symbol.isComplete, hnone, Option.isSome_none]
  · show ((s.push _).2.get ⟨s.size⟩).isComplete = false
    rw [get_push_new]
    rfl

theorem lookup_map {α β γ : Type} {f : α → γ} {g : β → γ} {l : List (String × α)} {l' : List (String × β)}
    (h : l.map (fun p => (p.1, f p.2)) = l'.map (fun p => (p.1, g p.2))) (x : String) :
    (l.lookup x).map f = (l'.lookup x).map g := by
  induction l generalizing l' with
  | nil =>
    cases l' with
    | nil => rfl
    | cons p l' => cases h
  | cons p l ih =>
    cases l' with
    | nil => cases h
    | cons q l' =>
      simp only [List.map_cons, List.cons.injEq, Prod.mk.injEq] at h
      obtain ⟨⟨hkey, hvalue⟩, hrest⟩ := h
      rw [List.lookup_cons, List.lookup_cons, hkey]
      cases x == q.1 with
      | true => exact congrArg some hvalue
      | false => exact ih hrest

theorem field? (h : Γ.Describes pending s) {fields : List (String × ValueType)}
    (hfields : Γ.fields? tag = some fields) :
    ∃ id fs, s.struct? tag = some id ∧ (s.get id).fields = some fs ∧
      ∀ x, ((s.get id).field? x).map (fun f => (s.get f).attrs.type) = (fields.lookup x).map some := by
  have hstructs := h.structs tag
  rw [hfields, fieldTypes?, Option.map_some, Option.bind_eq_some_iff] at hstructs
  obtain ⟨id, hid, hfs⟩ := hstructs
  obtain ⟨fs, hfs, hmap⟩ := Option.map_eq_some_iff.mp hfs
  refine ⟨id, fs, hid, hfs, fun x => ?_⟩
  rw [Symbol.field?, hfs]
  exact lookup_map hmap x

theorem mem_scopes_of_open (hc : c ∈ s.openScopes) : c ∈ s.scopes :=
  List.mem_append_right _ (List.mem_reverse.mpr hc)

theorem frames_mono {pending' : Option (SymbolId × Entry)} (h : Γ.Describes pending s)
    (hmono : ∀ c ∈ s.openScopes, ∀ p ∈ c.bindings, ∀ entry, s.Stands pending p.2 entry → s'.Stands pending' p.2 entry) :
    List.Forall₂ (s'.Matches pending') (Γ.inner :: Γ.outer) s.openScopes :=
  forall₂_imp_of_mem_right h.frames fun _ c hc hmatches => hmatches.mono (hmono c hc)

theorem of_get (h : Γ.Describes pending s) (hsound : s'.Sound) (hsize : s.size ≤ s'.size)
    (hopen : s'.openScopes = s.openScopes) (hstructs : s'.structs = s.structs)
    (harchive : ∀ c ∈ s.archive.toList, c ∈ s'.archive.toList)
    (hget : ∀ id : SymbolId, id.index < s.size → s'.get id = s.get id ∨
      pending.map (·.1) = some id ∧ (s.get id).attrs.roles.function = true ∧ (s.get id).attrs.roles.var = false ∧
        (s'.get id).attrs.type = (s.get id).attrs.type) : Γ.Describes pending s' where
  sound := hsound
  frames := by
    rw [hopen]
    refine h.frames_mono fun c hc p hp entry hstands => hstands.mono fun hother hreal => ?_
    have hin := (h.sound.bound c (mem_scopes_of_open hc) p hp).1
    refine hreal.mono hsize ((hget _ hin).resolve_right fun hr => hother hr.1) (fun i hi hvar => ?_) harchive
    exact (hget i hi).resolve_right fun hr => by rw [hr.2.2.1] at hvar; cases hvar
  structs tag := by
    rw [← h.structs tag, fieldTypes?, fieldTypes?, struct?, struct?, hstructs]
    cases hid : s.structs.lookup tag with
    | none => rfl
    | some id =>
      have hmem := mem_of_lookup hid
      obtain ⟨hin, hattrs⟩ := h.sound.structs _ hmem
      have hsame := (hget id hin).resolve_right fun hr => by rw [hattrs] at hr; cases hr.2.1
      simp only [Option.bind_some, hsame]
      have hin := h.fields _ hmem
      cases hfs : (s.get id).fields with
      | none => rfl
      | some fs =>
        simp only [hfs, Option.getD_some] at hin
        simp only [Option.map_some, Option.some.injEq]
        refine List.map_congr_left fun q hq => ?_
        rcases hget q.2 (hin q hq) with hr | hr
        · rw [hr]
        · rw [hr.2.2.2]
  fields p hp q hq := by
    rw [hstructs] at hp
    obtain ⟨hin, hattrs⟩ := h.sound.structs p hp
    rw [(hget p.2 hin).resolve_right fun hr => by rw [hattrs] at hr; cases hr.2.1] at hq
    exact Nat.lt_of_lt_of_le (h.fields p hp q hq) hsize

theorem of_extends (h : Γ.Describes pending s) (hsound : s'.Sound) (hext : s.Extends s')
    (hopen : s'.openScopes = s.openScopes) (hstructs : s'.structs = s.structs)
    (harchive : ∀ c ∈ s.archive.toList, c ∈ s'.archive.toList) : Γ.Describes pending s' :=
  h.of_get hsound hext.size hopen hstructs harchive fun id hid => .inl (hext.get id hid)

theorem push (h : Γ.Describes pending s) (x : Symbol) : Γ.Describes pending (s.push x).2 :=
  h.of_extends (h.sound.push x).sound (s.push_extends x) rfl rfl fun _ hc => hc

theorem record (h : Γ.Describes pending s) (depth : Nat) (id : SymbolId) : Γ.Describes pending (s.record depth id) :=
  h.of_extends (h.sound.record depth id).sound ⟨Nat.le_refl _, fun _ _ => rfl⟩ rfl rfl fun _ hc => hc

theorem recordBlank (h : Γ.Describes pending s) : Γ.Describes pending s.recordBlank :=
  h.of_extends h.sound.recordBlank.sound ⟨Nat.le_refl _, fun _ _ => rfl⟩ rfl rfl fun _ hc => hc

theorem structOrPlaceholder (h : Γ.Describes pending s) (tag : Lexeme) :
    Γ.Describes pending (s.structOrPlaceholder tag).2 := by
  have hsound := (h.sound.structOrPlaceholder tag).1.sound
  unfold SymbolTable.structOrPlaceholder at hsound ⊢
  split at hsound
  · exact h
  · rename_i hnew
    have hpush := h.push ⟨tag.text, tag.loc, globalBlock, .typed (.struct tag.text) {}, none, none⟩
    refine ⟨hsound, hpush.frames, fun t => ?_, fun p hp q hq => ?_⟩
    · rw [← hpush.structs t]
      unfold fieldTypes? struct?
      dsimp only
      rw [List.lookup_append]
      by_cases ht : t = tag.text
      · subst ht
        have hold : (s.push ⟨tag.text, tag.loc, globalBlock, .typed (.struct tag.text) {}, none, none⟩).2.structs.lookup
            tag.text = none := hnew
        rw [hold, List.lookup_cons, beq_self_eq_true]
        simp only [Option.none_or, Option.bind_some, Option.bind_none, Option.map_eq_none_iff]
        exact congrArg Symbol.fields (get_push_new _)
      · rw [List.lookup_cons, beq_eq_false_iff_ne.mpr ht, List.lookup_nil, Option.or_none]
        rfl
    · rcases List.mem_append.mp hp with hp | hp
      · exact hpush.fields p hp q hq
      · rw [List.mem_singleton.mp hp] at hq
        change q ∈ Option.getD ((s.push _).2.get ⟨s.size⟩).fields [] at hq
        rw [get_push_new] at hq
        cases hq

theorem insert (h : Γ.Describes pending s) {x : String} {id : SymbolId} {entry : Entry} (hs' : s.insert x id = .ok s')
    (hsound : s'.Sound) (hstands : s.Stands pending id entry) : (Γ.bind x entry).Describes pending s' := by
  unfold SymbolTable.insert at hs'
  split at hs'
  · cases hs'
  · cases hs'
    refine ⟨hsound, .cons ?_ h.outer, h.structs, h.fields⟩
    exact List.rel_append h.inner (.cons ⟨rfl, hstands⟩ .nil)

theorem enterBlock (h : Γ.Describes pending s) : (Γ.enter []).Describes pending s.enterBlock where
  sound := h.sound.enterBlock.sound
  frames := .cons .nil h.frames
  structs := h.structs
  fields := h.fields

theorem exitBlock {frames : List Frame} (h : Γ.Describes pending s) (hΓ : Γ.outer = frame :: frames) :
    Env.Describes { Γ with inner := frame, outer := frames } pending s.exitBlock.2 := by
  have hsound := h.sound.exitBlock.sound
  have houter := h.outer
  rw [hΓ] at houter
  unfold SymbolTable.exitBlock at hsound ⊢
  cases hs : s.outer with
  | nil => rw [hs] at houter; cases houter
  | cons c scopes =>
    rw [hs] at houter hsound
    refine ⟨hsound, ?_, h.structs, h.fields⟩
    refine List.Forall₂.imp (fun f c hf => hf.mono fun p _ entry hstands => hstands.mono fun _ hreal => ?_) houter
    exact hreal.mono (Nat.le_refl _) rfl (fun _ _ _ => rfl) fun c hc => by simp [hc]

section Pending

variable {f : SymbolId} {entry : Entry}

theorem await (h : Γ.Describes none s) (hf : s.size ≤ f.index) (entry : Entry) : Γ.Describes (some (f, entry)) s := by
  refine ⟨h.sound, h.frames_mono fun c hc p hp e hstands => ?_, h.structs, h.fields⟩
  have hin := (h.sound.bound c (mem_scopes_of_open hc) p hp).1
  refine (stands_other ?_).mpr (stands_none.mp hstands)
  rintro rfl
  exact Nat.not_le_of_lt hin hf

theorem modify (h : Γ.Describes (some (f, entry)) s) (hf : f.index < s.size) (g : Symbol → Symbol)
    (hkeeps : (s.get f).Keeps (g (s.get f))) (hfunction : (s.get f).attrs.roles.function = true)
    (hvar : (s.get f).attrs.roles.var = false) : Γ.Describes (some (f, entry)) (s.modify f g) := by
  refine h.of_get (h.sound.modify f g hkeeps).sound (by simp) rfl rfl (fun _ hc => hc) fun id hid => ?_
  rw [get_modify hf]
  split
  · rename_i hid
    subst hid
    exact .inr ⟨rfl, hfunction, hvar, hkeeps.type⟩
  · exact .inl rfl

theorem realize (h : Γ.Describes (some (f, entry)) s) (hreal : s.Realizes f entry) : Γ.Describes none s := by
  refine ⟨h.sound, h.frames_mono fun c hc p hp e hstands => ?_, h.structs, h.fields⟩
  by_cases hpf : p.2 = f
  · subst hpf
    obtain rfl := stands_pending.mp hstands
    exact stands_none.mpr hreal
  · exact stands_none.mpr ((stands_other hpf).mp hstands)

end Pending

end Describes

end Env

end OcCompiler
