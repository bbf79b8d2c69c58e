import OcCompiler.Proofs.ErrorPosition
import OcCompiler.Proofs.FilePlaces
import OcCompiler.Proofs.TokenPlaces

/-! What a run writes. After a syntax error it writes nothing. Otherwise it writes the wanted listings in one order, oil only
    for a program without complaints, and never to the source: listings and sources end with different letters. -/

namespace OcCompiler

open Lexical

namespace Path

theorem getLast?_cut {separator x : Char} (hx : x ≠ separator) {cs : List Char} (h : cs.getLast? = some x) :
    ∃ part, (cut separator cs).getLast? = some part ∧ part.getLast? = some x := by
  induction cs with
  | nil => cases h
  | cons c cs ih =>
    cases cs with
    | nil =>
      obtain rfl : c = x := Option.some.inj h
      exact ⟨[c], by simp [cut, hx], rfl⟩
    | cons d cs =>
      obtain ⟨part, hpart, hlast⟩ := ih h
      rw [cut]
      cases hparts : cut separator (d :: cs) with
      | nil => exact absurd hparts (cut_ne_nil separator _)
      | cons first parts =>
        rw [hparts] at hpart
        split
        · exact ⟨part, hpart, hlast⟩
        · cases parts with
          | nil =>
            cases hpart
            obtain ⟨front, rfl⟩ := List.getLast?_eq_some_iff.mp hlast
            exact ⟨(c :: front) ++ [x], rfl, List.getLast?_concat⟩
          | cons second parts => exact ⟨part, hpart, hlast⟩

theorem getLast?_segments {path : String} {x : Char} (hx : x ≠ '/') (h : path.toList.getLast? = some x) :
    ∃ name, (segments path).getLast? = some name ∧ name.toList.getLast? = some x := by
  obtain ⟨part, hpart, hlast⟩ := getLast?_cut hx h
  refine ⟨String.ofList part, ?_, by rwa [String.toList_ofList]⟩
  rw [segments, List.getLast?_map, hpart]
  rfl

theorem exists_getLast?_segments (path : String) : ∃ name, (segments path).getLast? = some name := by
  refine ⟨_, List.getLast?_eq_getLast_of_ne_nil ?_⟩
  exact mt List.map_eq_nil_iff.mp (cut_ne_nil '/' path.toList)

/-- The last segment of the path of a source says nothing, or it is a file name with the ending of a source. -/
theorem isSource_segments {path name : String} (h : isSource path = true) (hlast : (segments path).getLast? = some name) :
    name ≠ ".." ∧ (isIdle name = false → name.toList.getLast? = some 'c') := by
  by_cases hidle : isIdle name = true
  · refine ⟨?_, fun hnot => absurd hidle (Bool.not_eq_true _ ▸ hnot)⟩
    rintro rfl
    exact absurd hidle (by decide)
  have hextension : extension? path = some "oc" := beq_iff_eq.mp h
  obtain ⟨file, hfile, hending⟩ := Option.bind_eq_some_iff.mp hextension
  obtain ⟨front, hfront⟩ := List.getLast?_eq_some_iff.mp hlast
  have hname : ((segments path).filter (!isIdle ·)).getLast? = some name := by simp [hfront, hidle]
  rw [fileName?, hname] at hfile
  dsimp only at hfile hending
  split at hfile
  · cases hfile
  rename_i hup
  cases hfile
  refine ⟨hup, fun _ => ?_⟩
  split at hending
  · cases hending
  · cases hending
  · have hreversed := congrArg String.toList (Option.some.inj hending)
    rw [String.toList_ofList, List.reverse_eq_iff] at hreversed
    obtain ⟨rest, hrest⟩ := List.takeWhile_prefix (l := name.toList.reverse) (· ≠ '.')
    rw [← List.head?_reverse, ← hrest, hreversed]
    rfl

end Path

/-! ### Listings -/

namespace Listing

/-- The listings in the order in which they are written. -/
def inOrder : List Listing := [.tokens, .tree, .symbols, .oil]

/-- What the listings of a program say. -/
def content (s : TokenStream) (t : Tree) (a : Analysis) (oil : Option Oil.Module) : Listing → Option String
  | .tokens => some s.listing
  | .tree => some (a.dump t)
  | .symbols => some a.symbols.renderListing
  | .oil => oil.map Oil.Module.text

theorem ending_inj {l l' : Listing} (h : l.ending.toList.getLast? = l'.ending.toList.getLast?) : l = l' := by
  cases l <;> cases l' <;> first | rfl | cases h

end Listing

namespace Request

/-- The wanted listings that there are, in the order in which they are written. -/
def due (r : Request) (content : Listing → Option String) : List Listing :=
  Listing.inOrder.filter fun l => r.wants (.only l) && (content l).isSome

def writes (r : Request) (content : Listing → Option String) : List (String × String) :=
  (r.due content).map fun l => (r.listingPath l, (content l).getD "")

theorem listingPath_last (r : Request) (l : Listing) : (r.listingPath l).toList.getLast? = l.ending.toList.getLast? := by
  have hends : ∃ front, (r.listingPath l).toList = front ++ l.ending.toList := by
    unfold listingPath Path.join
    split
    · exact ⟨r.outDir.toList ++ ((Path.baseName r.input).toList ++ ['.']), by simp⟩
    · exact ⟨r.outDir.toList ++ '/' :: ((Path.baseName r.input).toList ++ ['.']), by simp⟩
  obtain ⟨front, hfront⟩ := hends
  rw [hfront, List.getLast?_append]
  cases l <;> rfl

theorem writesOf_eq (r : Request) (s : TokenStream) (t : Tree) (a : Analysis) (oil : Option Oil.Module) :
    Plan.writesOf r { tokens := s, tree := some (.ok t), analysis := some a, oil } =
      r.writes (Listing.content s t a oil) := by
  have hall (content : Listing → Option String) (ls : List Listing) :
      (ls.map fun l => (l, content l)).filterMap (fun p =>
        if r.wants (.only p.1) then p.2.map (r.listingPath p.1, ·) else none) =
      (ls.filter fun l => r.wants (.only l) && (content l).isSome).map fun l => (r.listingPath l, (content l).getD "") := by
    induction ls with
    | nil => rfl
    | cons l ls ih =>
      rw [List.map_cons, List.filterMap_cons, List.filter_cons, ih]
      cases r.wants (.only l) <;> cases htext : content l <;> simp [htext]
  exact hall (Listing.content s t a oil) Listing.inOrder

end Request

namespace FileSystem

variable {fs : FileSystem} {place : EntryPath}

/-- The last letter of the name of a place. -/
def lastLetter? (place : EntryPath) : Option Char := place.getLast?.bind fun name => name.toList.getLast?

theorem lastLetter?_listingPath {r : Request} {l : Listing} (h : fs.resolve (r.listingPath l) = .ok place)
    (hfile : fs.find? place ≠ some .directory) : lastLetter? place = l.ending.toList.getLast? := by
  obtain ⟨x, hx, hslash, hdot⟩ : ∃ x, l.ending.toList.getLast? = some x ∧ x ≠ '/' ∧ x ≠ '.' := by
    cases l <;> exact ⟨_, rfl, by decide, by decide⟩
  obtain ⟨name, hname, hlast⟩ := Path.getLast?_segments hslash ((r.listingPath_last l).trans hx)
  have hup : name ≠ ".." := by
    rintro rfl
    exact hdot (Option.some.inj hlast).symm
  rw [lastLetter?, (getLast?_of_resolve h hfile hname hup).2, hx]
  exact hlast

theorem lastLetter?_source {path : String} (hsource : Path.isSource path = true) (h : fs.resolve path = .ok place)
    (hfile : fs.find? place ≠ some .directory) : lastLetter? place = some 'c' := by
  obtain ⟨name, hname⟩ := Path.exists_getLast?_segments path
  obtain ⟨hup, hending⟩ := Path.isSource_segments hsource hname
  obtain ⟨hidle, hlast⟩ := getLast?_of_resolve h hfile hname hup
  rw [lastLetter?, hlast]
  exact hending hidle

end FileSystem

/-! ### One compilation -/

theorem TokenStream.name?_of_parse {name text : String} {s : TokenStream} (h : ofText name text = .ok s) {e : ParseError}
    {t : Tree} (he : Tree.empty.parse s.tokens = (.error e, t)) : ∃ file, s.files.name? e.loc.file = some file := by
  obtain ⟨f, hf, rfl⟩ := Tree.failure_of_parse he
  have hclosed : (Cursor.ofTokens s.tokens).Closed :=
    ⟨.atEnd s.finish, List.mem_append_right _ (List.mem_singleton_self _), rfl⟩
  obtain ⟨ts, ⟨htokens, -, hstop⟩, -⟩ := Program.halts_read hclosed hf
  obtain ⟨u, us, hahead⟩ := List.exists_cons_of_ne_nil (List.ne_nil_of_mem hstop.choose_spec.1)
  have hmem : f.stop.current ∈ s.tokens := by
    replace htokens : s.tokens = ts ++ f.stop.ahead := htokens
    rw [htokens, Cursor.current, hahead]
    simp
  have hnames := names_files h
  have hfile : f.stop.current.loc.file ≤ (markers (Scan.pieces true text.toList)).length := by
    rcases (mem_tokens_iff h _).mp hmem with heq | ⟨ps₁, kind, cs, ps₂, hps, heq⟩
    · rw [heq]
      exact Nat.le_refl _
    · rw [heq, hps, markers, List.filterMap_append, List.length_append]
      exact Nat.le_add_right _ _
  have hlt : f.stop.current.loc.file < s.files.names.size := by
    rw [← Array.length_toList, hnames, List.length_cons, List.length_map]
    exact Nat.lt_succ_of_le hfile
  exact ⟨_, Array.getElem?_eq_getElem hlt⟩

theorem Compilation.ofText_emit {name text : String} {c : Compilation} (h : ofText name text .emit = .ok c) :
    ∃ s, TokenStream.ofText name text = .ok s ∧
      match Tree.empty.parse s.tokens with
      | (.error e, _) => ∃ file, s.files.name? e.loc.file = some file ∧
          c = { tokens := s, tree := some (.error ⟨file, e.loc.line, e⟩) }
      | (.ok _, t) => ∃ a oil, Analysis.ofTree t s.errors.toArray = .ok a ∧ oilOf t a = .ok oil ∧
          c = { tokens := s, tree := some (.ok t), analysis := some a, oil } := by
  obtain ⟨s, hs, h⟩ := bind_eq_ok_iff.mp h
  refine ⟨s, hs, ?_⟩
  rw [if_neg (by decide)] at h
  cases hparse : Tree.empty.parse s.tokens with
  | mk result t =>
    cases result with
    | error e =>
      obtain ⟨file, hfile⟩ := TokenStream.name?_of_parse hs hparse
      have herror : parse s = .error ⟨file, e.loc.line, e⟩ := by
        rw [parse, hparse]
        dsimp only
        rw [hfile]
        rfl
      rw [herror] at h
      cases h
      exact ⟨file, hfile, rfl⟩
    | ok n =>
      have hok : parse s = .ok t := by rw [parse, hparse]
      rw [hok] at h
      dsimp only at h
      rw [if_neg (by decide)] at h
      obtain ⟨a, ha, h⟩ := bind_eq_ok_iff.mp h
      rw [if_neg (by decide)] at h
      obtain ⟨oil, hoil, h⟩ := bind_eq_ok_iff.mp h
      cases h
      exact ⟨a, oil, ha, hoil, rfl⟩

/-- How a run goes with the given listings and complaints. -/
structure Report.Delivers (r : Request) (fs : FileSystem) (text : String) (content : Listing → Option String) (log : Log)
    (report : Report) : Prop where
  /-- The wanted listings that there are are written one after the other. -/
  writes : fs.writeAll (r.writes content) = (.ok ((r.due content).map r.listingPath), report.files)
  outcome : report.outcome =
    if log = #[] then .ok ((r.due content).map r.listingPath) else .error (.failed log.size)
  /-- Each of them can be read back. -/
  listing : ∀ l ∈ r.due content, ∀ x ∈ content l, report.files.read (r.listingPath l) = .ok x
  /-- Nothing is changed anywhere else. -/
  other : ∀ place, (∀ l ∈ r.due content, fs.resolve (r.listingPath l) ≠ .ok place) →
    report.files.find? place = fs.find? place
  /-- None of them is at the place of the source, which is still there. -/
  input : (∀ l ∈ r.due content, fs.resolve (r.listingPath l) ≠ fs.resolve r.input) ∧ report.files.read r.input = .ok text

theorem Report.delivers_of_outcome {r : Request} {fs : FileSystem} {text : String} {content : Listing → Option String}
    {log : Log} {report : Report} (hsource : Path.isSource r.input = true) (hread : fs.read r.input = .ok text)
    (hfiles : report.files = (fs.writeAll (r.writes content)).2)
    (houtcome : report.outcome = (fs.writeAll (r.writes content)).1 >>= fun paths =>
      if log = #[] then .ok paths else .error (.failed log.size))
    (hwritten : ∀ path e, report.outcome ≠ .error (.file path e)) : Delivers r fs text content log report := by
  have hpaths : (r.writes content).map Prod.fst = (r.due content).map r.listingPath := List.map_map
  rcases fs.writeAll_cases (r.writes content) with ⟨fs', hall, hover⟩ | ⟨path, e, hfailed⟩
  swap
  · rw [hfailed] at houtcome
    exact absurd houtcome (hwritten path e)
  rw [hall] at hfiles houtcome
  rw [hpaths] at hall houtcome
  subst hfiles
  -- no two of the places have a name with the same last letter
  have hlisting (l : Listing) (hl : l ∈ r.due content) : ∃ place, fs.resolve (r.listingPath l) = .ok place ∧
      report.files.find? place = some (.file ((content l).getD "").toUTF8) := by
    obtain ⟨before, after, hdue⟩ := List.append_of_mem hl
    have hwrites := congrArg (List.map fun l => (r.listingPath l, (content l).getD "")) hdue
    rw [List.map_append, List.map_cons] at hwrites
    obtain ⟨place, hplace, hdirectory, hfile⟩ := hover.written _ _ _ hwrites
    refine ⟨place, hplace, hfile (List.forall_mem_map.mpr fun l' hl' hsame => ?_)⟩
    have hletters := FileSystem.lastLetter?_listingPath hplace hdirectory
    rw [FileSystem.lastLetter?_listingPath hsame hdirectory] at hletters
    have hnodup : (r.due content).Nodup := List.Nodup.filter _ (by decide)
    rw [hdue] at hnodup
    refine (List.nodup_cons.mp (List.nodup_append.mp hnodup).2.1).1 ?_
    rwa [← Listing.ending_inj hletters]
  obtain ⟨source, hsourcePlace, hfile⟩ := bind_eq_ok_iff.mp hread
  have hdirectory : fs.find? source ≠ some .directory := by
    intro hdirectory
    rw [hdirectory] at hfile
    cases hfile
  have hinput (l : Listing) : fs.resolve (r.listingPath l) ≠ .ok source := by
    intro hplace
    have hletters := FileSystem.lastLetter?_source hsource hsourcePlace hdirectory
    rw [FileSystem.lastLetter?_listingPath hplace hdirectory] at hletters
    cases l <;> cases hletters
  refine ⟨hall, houtcome, fun l hl x hx => ?_, fun place hplace => hover.kept place (List.forall_mem_map.mpr hplace),
    fun l _ => hsourcePlace ▸ hinput l, ?_⟩
  · obtain ⟨place, hplace, hfile⟩ := hlisting l hl
    rw [hx] at hfile
    exact FileSystem.read_eq_ok (hover.directories.resolve_iff.mpr hplace) hfile
  · rw [FileSystem.read, hover.directories.resolve_iff.mpr hsourcePlace]
    have hkept := hover.kept source (List.forall_mem_map.mpr fun l _ => hinput l)
    simp only [bind, Except.bind, hkept]
    exact hfile

/-- A run whose input can be read. After a syntax error nothing is written, and the error names the file and the line that
    its place belongs to. Otherwise the wanted listings are written, oil only if there are no complaints, and if they all
    can be written the run succeeds if and only if there are none. -/
theorem Report.ofRequest_delivers {r : Request} {fs : FileSystem} {text : String} (hsource : Path.isSource r.input = true)
    (hread : fs.read r.input = .ok text) :
    match ofRequest r fs with
    | .error f => f = .counterOverflow
    | .ok report => ∃ s, TokenStream.ofText r.input text = .ok s ∧
      match Tree.empty.parse s.tokens with
      | (.error e, _) => report.files = fs ∧ ∃ file, s.files.name? e.loc.file = some file ∧
          report.outcome = .error (.syntaxError ⟨file, e.loc.line, e⟩)
      | (.ok _, t) => ∃ a oil, Analysis.ofTree t s.errors.toArray = .ok a ∧ s.errors <+: a.log.toList ∧
          (if a.log = #[] then ∃ m next, oil = some m ∧ Oil.Module.ofAnalysis t a 1 = .ok (m, next) else oil = none) ∧
          ((∀ path e, report.outcome ≠ .error (.file path e)) →
            Delivers r fs text (Listing.content s t a oil) a.log report) := by
  have hrun : ofRequest r fs = do
      let c ← Compilation.ofText r.input text .emit
      return { outcome := (Plan.ofCompilation r c).conclude (fs.writeAll (Plan.ofCompilation r c).writes).1
               echo := Plan.echoOf r c
               log := some c.log
               files := (fs.writeAll (Plan.ofCompilation r c).writes).2 } := by
    rw [ofRequest, hread]
    simp only [Plan.ofText, bind_assoc]
    rfl
  rw [hrun]
  cases hc : Compilation.ofText r.input text .emit with
  | error f => exact Compilation.ofText_overflows _ _ _ f hc
  | ok c =>
    obtain ⟨s, hs, hcompiled⟩ := Compilation.ofText_emit hc
    refine ⟨s, hs, ?_⟩
    cases hparse : Tree.empty.parse s.tokens with
    | mk result t =>
      rw [hparse] at hcompiled
      cases result with
      | error e =>
        obtain ⟨file, hfile, rfl⟩ := hcompiled
        exact ⟨rfl, file, hfile, rfl⟩
      | ok n =>
        obtain ⟨a, oil, ha, hoil, rfl⟩ := hcompiled
        refine ⟨a, oil, ha, ?_, ?_, fun hwritten => ?_⟩
        · rw [Analysis.ofTree_parse hparse, Except.ok.injEq] at ha
          rw [← ha]
          exact Program.prefix_log_analyze _ _
        · rw [Compilation.oilOf] at hoil
          split at hoil
          · rename_i hempty
            obtain ⟨⟨m, next⟩, hm, h⟩ := bind_eq_ok_iff.mp hoil
            cases h
            rw [if_pos (Array.isEmpty_iff.mp hempty)]
            exact ⟨m, next, rfl, hm⟩
          · rename_i hlog
            cases hoil
            rw [if_neg (hlog ∘ Array.isEmpty_iff.mpr)]
        · refine delivers_of_outcome hsource hread ?_ ?_ hwritten
          · rw [← Request.writesOf_eq]
            rfl
          · rw [← Request.writesOf_eq]
            simp only [← Array.isEmpty_iff]
            rfl

def Report.failures? (report : Report) : Option Nat :=
  match report.outcome with
  | .error (.failed count) => some count
  | _ => none

theorem Report.outcome_of_failures? {report : Report} {count : Nat} (h : report.failures? = some count) :
    report.outcome = .error (.failed count) := by
  unfold failures? at h
  split at h
  · rename_i houtcome
    cases h
    exact houtcome
  · cases h

/-- With one complaint all listings but oil are written. -/
theorem Report.ofRequest_delivers_undeclared :
    let r : Request := { input := "p.oc" }
    let fs : FileSystem := { entries := [(["p.oc"], .file "x = 1;".toUTF8)] }
    Path.isSource r.input = true ∧ fs.read r.input = .ok "x = 1;" ∧
      ∃ report s t a, ofRequest r fs = .ok report ∧ TokenStream.ofText "p.oc" "x = 1;" = .ok s ∧
        Delivers r fs "x = 1;" (Listing.content s t a none) a.log report ∧
        r.due (Listing.content s t a none) = [.tokens, .tree, .symbols] ∧ report.outcome = .error (.failed 1) := by
  intro r fs
  have hsource : Path.isSource r.input = true := by decide
  have hread : fs.read r.input = .ok "x = 1;" := eq_ok_of_toOption (by decide +kernel)
  have hfailed : (ofRequest r fs).toOption.bind failures? = some 1 := by decide +kernel
  refine ⟨hsource, hread, ?_⟩
  obtain ⟨report, hreport, hcount⟩ := Option.bind_eq_some_iff.mp hfailed
  replace hreport := eq_ok_of_toOption hreport
  have houtcome := outcome_of_failures? hcount
  have h := ofRequest_delivers hsource hread
  rw [hreport] at h
  obtain ⟨s, hs, h⟩ := h
  cases hparse : Tree.empty.parse s.tokens with
  | mk result t =>
    rw [hparse] at h
    cases result with
    | error e =>
      obtain ⟨-, file, -, herror⟩ := h
      cases houtcome.symm.trans herror
    | ok n =>
      obtain ⟨a, oil, -, -, hoil, h⟩ := h
      have hdelivers := h (by simp [houtcome])
      have hlog : a.log ≠ #[] := by
        intro hlog
        have := hdelivers.outcome
        rw [if_pos hlog, houtcome] at this
        cases this
      rw [if_neg hlog] at hoil
      subst hoil
      exact ⟨report, s, t, a, hreport, hs, hdelivers, rfl, houtcome⟩

end OcCompiler
