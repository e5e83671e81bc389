import GrammarServer.Proofs.Document.Formatted
import GrammarServer.Session
import Mathlib.Data.List.Induction

/-!
# What a session remembers

A history is the list of requests that a session has handled. Of all that was said about a document
the session keeps the text that it was given last, if it is open. So requests are answered as in a
session that was only ever given that text, and what was published last for an open document are
the diagnostics of that text.
-/
namespace GrammarServer

namespace Request

def uri : Request → String
  | didOpen uri _ | didChange uri _ | didClose uri | completion uri | hover uri _ _
  | definition uri _ _ | references uri _ _ _ | documentSymbol uri | formatting uri _ => uri

def texts : Request → List String
  | didOpen _ text => [text]
  | didChange _ changes => changes.filterMap id
  | _ => []

/-- The text with which a request leaves the document that it is about, if that is open then. -/
def revised (before : Option String) : Request → Option String
  | didOpen _ text => some text
  | didChange _ changes => before.map (changes.filterMap id).getLastD
  | didClose _ => none
  | _ => before

def textAfter (uri : String) (before : Option String) (r : Request) : Option String :=
  if r.uri = uri then r.revised before else before

end Request

namespace Session

/-! ## Histories -/

def run (s : Session) (rs : List Request) : Session := rs.foldl (fun s r => (s.handle r).1) s

def publishedIn : Except Fault Response → List (String × List Diagnostic)
  | .ok response => response.published
  | .error _ => []

def publications (s : Session) : List Request → List (String × List Diagnostic)
  | [] => []
  | r :: rs => publishedIn (s.handle r).2 ++ publications (s.handle r).1 rs

def lastPublished (uri : String) (published : List (String × List Diagnostic)) :
    Option (List Diagnostic) :=
  ((published.filter fun entry => entry.1 == uri).map (·.2)).getLast?

/-- The last text of a document in a history, if the document is open at its end. -/
def lastText (uri : String) (rs : List Request) : Option String :=
  rs.foldl (Request.textAfter uri) none

/-- A history opens a document and does not close it any more; its last text is the one it was
opened with, unless a later request about it carries another one. -/
def LeavesOpen (rs : List Request) (uri text : String) : Prop :=
  ∃ before first after, rs = before ++ .didOpen uri first :: after ∧ .didClose uri ∉ after ∧
    text = ((after.filter fun r => r.uri == uri).flatMap Request.texts).getLastD first

theorem run_append_singleton (s : Session) (rs : List Request) (r : Request) :
    s.run (rs ++ [r]) = ((s.run rs).handle r).1 := by
  rw [run, List.foldl_append, List.foldl_cons, List.foldl_nil, run]

theorem publications_append (rs rs' : List Request) : ∀ s : Session,
    s.publications (rs ++ rs') = s.publications rs ++ (s.run rs).publications rs' := by
  induction rs with
  | nil => exact fun s => rfl
  | cons r rs ih =>
    intro s
    rw [List.cons_append, publications, ih, publications, List.append_assoc]
    rfl

theorem lastText_append_singleton (uri : String) (rs : List Request) (r : Request) :
    lastText uri (rs ++ [r]) = r.textAfter uri (lastText uri rs) := by
  rw [lastText, List.foldl_append, List.foldl_cons, List.foldl_nil, lastText]

/-! ## The last text -/

theorem textAfter_some {uri : String} {r : Request} (hr : r ≠ .didClose uri) (text : String) :
    r.textAfter uri (some text) =
      some ((if r.uri == uri then r.texts else []).getLastD text) := by
  rw [Request.textAfter]
  by_cases huri : r.uri = uri
  · rw [if_pos huri, if_pos (by simpa using huri)]
    cases r
    case didClose u => exact absurd (congrArg Request.didClose huri) hr
    all_goals rfl
  · rw [if_neg huri, if_neg (by simpa using huri)]
    rfl

theorem foldl_textAfter_some {uri : String} {rs : List Request} (h : .didClose uri ∉ rs) :
    ∀ text : String, rs.foldl (Request.textAfter uri) (some text) =
      some (((rs.filter fun r => r.uri == uri).flatMap Request.texts).getLastD text) := by
  induction rs with
  | nil => exact fun text => rfl
  | cons r rs ih =>
    intro text
    have hr : r ≠ .didClose uri := (List.ne_of_not_mem_cons h).symm
    rw [List.foldl_cons, textAfter_some hr, ih (List.not_mem_of_not_mem_cons h), List.filter_cons]
    by_cases huri : (r.uri == uri) = true
    · rw [if_pos huri, if_pos huri, List.flatMap_cons]
      simp only [List.getLastD_eq_getLast?, List.getLast?_append, Option.getD_or]
    · rw [if_neg huri, if_neg huri]
      rfl

/-- Only an open document has a text after a request; it was opened before or by it. -/
theorem textAfter_eq_some {uri text : String} {before : Option String} {r : Request}
    (h : r.textAfter uri before = some text) :
    (∃ first, r = .didOpen uri first) ∨ r ≠ .didClose uri ∧ ∃ old, before = some old := by
  rw [Request.textAfter] at h
  split at h
  case isFalse huri =>
    refine Or.inr ⟨?_, text, h⟩
    rintro rfl
    exact huri rfl
  case isTrue huri =>
    cases r
    case didOpen u first => exact Or.inl ⟨first, congrArg (Request.didOpen · first) huri⟩
    case didClose u => cases h
    case didChange u changes =>
      obtain ⟨old, hold, _⟩ := Option.map_eq_some_iff.mp h
      exact Or.inr ⟨nofun, old, hold⟩
    all_goals exact Or.inr ⟨nofun, text, h⟩

theorem exists_opening {uri text : String} {rs : List Request} (h : lastText uri rs = some text) :
    ∃ before first after, rs = before ++ .didOpen uri first :: after ∧ .didClose uri ∉ after := by
  induction rs using List.reverseRecOn generalizing text with
  | nil => cases h
  | append_singleton rs r ih =>
    rw [lastText_append_singleton] at h
    rcases textAfter_eq_some h with ⟨first, rfl⟩ | ⟨hr, old, hold⟩
    · exact ⟨rs, first, [], rfl, by simp⟩
    · obtain ⟨before, first, after, rfl, hafter⟩ := ih hold
      refine ⟨before, first, after ++ [r], by simp, ?_⟩
      simp only [List.mem_append, List.mem_singleton, not_or]
      exact ⟨hafter, hr.symm⟩

theorem lastText_of_opening {uri first : String} (before : List Request) {after : List Request}
    (h : .didClose uri ∉ after) :
    lastText uri (before ++ .didOpen uri first :: after) =
      some (((after.filter fun r => r.uri == uri).flatMap Request.texts).getLastD first) := by
  have hopen : ∀ old, (Request.didOpen uri first).textAfter uri old = some first :=
    fun old => if_pos rfl
  rw [lastText, List.foldl_append, List.foldl_cons, hopen, foldl_textAfter_some h]

theorem lastText_eq_some_iff {uri text : String} {rs : List Request} :
    lastText uri rs = some text ↔ LeavesOpen rs uri text := by
  constructor
  · intro h
    obtain ⟨before, first, after, rfl, hafter⟩ := exists_opening h
    rw [lastText_of_opening before hafter] at h
    exact ⟨before, first, after, rfl, hafter, (Option.some.inj h).symm⟩
  · rintro ⟨before, first, after, rfl, hafter, rfl⟩
    exact lastText_of_opening before hafter

/-! ## One request -/

theorem lookup_putIn (uri key : String) (d : Document) (docs : List (String × Document)) :
    (putIn uri d docs).lookup key = if key = uri then some d else docs.lookup key := by
  induction docs with
  | nil => grind [putIn]
  | cons entry docs ih => grind [putIn]

theorem lookup_filter_ne (uri key : String) (docs : List (String × Document)) :
    (docs.filter fun entry => entry.1 != uri).lookup key =
      if key = uri then none else docs.lookup key := by
  induction docs with
  | nil => simp
  | cons entry docs ih => grind

theorem document?_update (s : Session) (uri text key : String) :
    (s.update uri text).1.document? key =
      if key = uri then some (.ofText s.load uri text) else s.document? key :=
  lookup_putIn uri key _ s.documents

/-- A document whose text has been changed is that of its last text, and each text has its
diagnostics published. -/
theorem change_eq (uri key : String) (changes : List (Option String)) : ∀ s : Session,
    (change uri changes s).1.load = s.load ∧
    (change uri changes s).1.document? key =
      (if key = uri then ((changes.filterMap id).getLast?.map (Document.ofText s.load uri)).or
        (s.document? key) else s.document? key) ∧
    (change uri changes s).2 = (changes.filterMap id).map fun text =>
      (uri, (Document.ofText s.load uri text).diagnostics) := by
  induction changes with
  | nil => intro s; simp [change]
  | cons entry changes ih =>
    intro s
    cases entry with
    | none => exact ih s
    | some text =>
      obtain ⟨hload, hdocument, hpublished⟩ := ih (s.update uri text).1
      have hload' : (s.update uri text).1.load = s.load := rfl
      rw [hload'] at hload hdocument hpublished
      refine ⟨hload, hdocument.trans ?_, congrArg (_ :: ·) hpublished⟩
      have htexts : (some text :: changes).filterMap id = text :: changes.filterMap id := rfl
      rw [document?_update, htexts, List.getLast?_cons]
      by_cases hkey : key = uri
      · simp only [if_pos hkey]
        cases (changes.filterMap id).getLast? <;> rfl
      · simp only [if_neg hkey]

theorem load_handle (s : Session) (r : Request) : (s.handle r).1.load = s.load := by
  cases r
  case didChange uri changes =>
    rw [handle]
    split
    · rfl
    · exact (change_eq uri uri changes s).1
  all_goals rfl

section

variable {s : Session} {uri : String} {text : Option String}
  (h : s.document? uri = text.map (Document.ofText s.load uri))

include h

/-- A document that stands for a text stands for the text that a request leaves it with. -/
theorem document?_handle (r : Request) : (s.handle r).1.document? uri =
    (r.textAfter uri text).map (Document.ofText s.load uri) := by
  rw [Request.textAfter]
  cases r
  case didOpen u first =>
    rw [handle, document?_update]
    by_cases hu : uri = u
    · rw [if_pos hu, if_pos (by exact hu.symm), hu]
      rfl
    · rw [if_neg hu, if_neg (by exact Ne.symm hu), h]
  case didClose u =>
    have hclose : (s.handle (.didClose u)).1.document? uri =
        if uri = u then none else s.document? uri := lookup_filter_ne u uri s.documents
    rw [hclose]
    by_cases hu : uri = u
    · rw [if_pos hu, if_pos (by exact hu.symm)]
      rfl
    · rw [if_neg hu, if_neg (by exact Ne.symm hu), h]
  case didChange u changes =>
    obtain ⟨_, hdocument, _⟩ := change_eq u uri changes s
    by_cases hu : u = uri
    · subst hu
      rw [if_pos (by rfl), Request.revised, handle, h]
      cases text with
      | none => exact h
      | some old =>
        refine hdocument.trans ?_
        rw [if_pos rfl, h, Option.map_some, Option.map_some, Option.map_some,
          List.getLastD_eq_getLast?]
        cases (changes.filterMap id).getLast? <;> rfl
    · rw [if_neg (by exact hu), ← h, handle]
      split
      · rfl
      · rw [if_neg (Ne.symm hu)] at hdocument
        exact hdocument
  -- The other requests leave all documents as they are.
  all_goals
    split <;> exact h

/-- A request publishes the diagnostics of each text that it gives to an open document. -/
theorem publishedIn_handle {r : Request} (hr : r.uri = uri) : publishedIn (s.handle r).2 =
    if (r.revised text).isSome then
      r.texts.map fun new => (uri, (Document.ofText s.load uri new).diagnostics)
    else [] := by
  subst hr
  cases r
  case didOpen u first => rfl
  case didClose u => rfl
  case didChange u changes =>
    replace h : s.document? u = text.map (Document.ofText s.load u) := h
    rw [handle, h]
    cases text with
    | none => rfl
    | some old => exact (change_eq u u changes s).2.2
  all_goals
    simp only [handle, Request.texts, List.map_nil, ite_self]
    cases query s _ <;> rfl

end

/-- A request is answered by what it says and the document that it is about. -/
theorem handle_congr {s s' : Session} {r : Request} (hload : s.load = s'.load)
    (h : s.document? r.uri = s'.document? r.uri) : (s.handle r).2 = (s'.handle r).2 := by
  cases r
  case didOpen u first => simp only [handle, update, hload]
  case didClose u => rfl
  case didChange u changes =>
    replace h : s.document? u = s'.document? u := h
    have hs := (change_eq u u changes s).2.2
    have hs' := (change_eq u u changes s').2.2
    rw [handle, handle, h]
    cases s'.document? u with
    | none => rfl
    | some d => simp only [hs, hs', hload]
  all_goals
    simp only [Request.uri] at h
    simp only [handle, query, h]

/-! ## Whole histories -/

theorem load_run (s : Session) (rs : List Request) : (s.run rs).load = s.load := by
  induction rs using List.reverseRecOn with
  | nil => rfl
  | append_singleton rs r ih => rw [run_append_singleton, load_handle, ih]

/-- After any history, the document under a name is that of its last text. -/
theorem document?_run (load : Loader) (uri : String) (rs : List Request) :
    (run { load } rs).document? uri = (lastText uri rs).map (Document.ofText load uri) := by
  induction rs using List.reverseRecOn with
  | nil => rfl
  | append_singleton rs r ih =>
    have hload := load_run { load } rs
    rw [run_append_singleton, lastText_append_singleton]
    have hstep := document?_handle (s := run { load } rs) (by rwa [hload]) r
    rwa [hload] at hstep

/-- A request publishes the diagnostics of each text that it carries if it leaves the document that
it is about open. -/
theorem publishedIn_handle_run (load : Loader) (rs : List Request) (r : Request) :
    publishedIn ((run { load } rs).handle r).2 =
      if (r.revised (lastText r.uri rs)).isSome then
        r.texts.map fun text => (r.uri, (Document.ofText load r.uri text).diagnostics)
      else [] := by
  have hload : (run { load } rs).load = load := load_run { load } rs
  have hdocument : (run { load } rs).document? r.uri =
      (lastText r.uri rs).map (Document.ofText (run { load } rs).load r.uri) := by
    rw [hload, document?_run]
  rw [publishedIn_handle hdocument rfl, hload]

theorem lastPublished_append (uri : String) (old new : List (String × List Diagnostic)) :
    lastPublished uri (old ++ new) = (lastPublished uri new).or (lastPublished uri old) := by
  rw [lastPublished, List.filter_append, List.map_append, List.getLast?_append, lastPublished,
    lastPublished]

theorem lastPublished_map (uri : String) (f : String → List Diagnostic) (texts : List String) :
    lastPublished uri (texts.map fun text => (uri, f text)) = texts.getLast?.map f := by
  rw [lastPublished, List.filter_eq_self.mpr (by simp), List.map_map, ← List.getLast?_map]
  rfl

theorem lastPublished_map_ne {uri other : String} (h : other ≠ uri)
    (f : String → List Diagnostic) (texts : List String) :
    lastPublished uri (texts.map fun text => (other, f text)) = none := by
  rw [lastPublished, List.filter_eq_nil_iff.mpr (by simpa using fun _ _ => h)]
  rfl

/-- A document that is open after a request has the last text that the request carries, or else
the one that it had. -/
theorem revised_eq_some {r : Request} {before : Option String} {text : String}
    (h : r.revised before = some text) :
    r.texts.getLast? = some text ∨ r.texts.getLast? = none ∧ before = some text := by
  cases r
  case didOpen u first => exact Or.inl h
  case didClose u => cases h
  case didChange u changes =>
    obtain ⟨old, rfl, rfl⟩ := Option.map_eq_some_iff.mp h
    rw [List.getLastD_eq_getLast?, Request.texts]
    cases (changes.filterMap id).getLast? with
    | none => exact Or.inr ⟨rfl, rfl⟩
    | some last => exact Or.inl rfl
  all_goals exact Or.inr ⟨rfl, h⟩

theorem lastPublished_run (load : Loader) (uri : String) {rs : List Request} {text : String}
    (h : lastText uri rs = some text) :
    lastPublished uri (publications { load } rs) =
      some (Document.ofText load uri text).diagnostics := by
  induction rs using List.reverseRecOn generalizing text with
  | nil => cases h
  | append_singleton rs r ih =>
    rw [publications_append, publications, publications, List.append_nil,
      publishedIn_handle_run, lastPublished_append]
    rw [lastText_append_singleton, Request.textAfter] at h
    by_cases hr : r.uri = uri
    · rw [if_pos hr] at h
      rw [hr, h, Option.isSome_some, if_pos rfl, lastPublished_map]
      rcases revised_eq_some h with hlast | ⟨hlast, hold⟩
      · rw [hlast]
        rfl
      · rw [hlast, ih hold]
        rfl
    · rw [if_neg hr] at h
      rw [ih h]
      split
      · rw [lastPublished_map_ne hr]
        rfl
      · rfl

theorem mem_openUris_iff (s : Session) (uri : String) :
    uri ∈ s.openUris ↔ ∃ d, s.document? uri = some d := by
  rw [openUris, document?, ← Option.isSome_iff_exists, List.lookup_isSome_iff, List.mem_map]
  simp only [beq_iff_eq, eq_comm (a := uri)]

/-- After any history, the documents that were opened and not closed since are those of their last
texts, and requests are answered and diagnostics published as if nothing else had happened. -/
theorem run_history (load : Loader) (rs : List Request) (uri : String) :
    (uri ∈ (run { load } rs).openUris ↔ ∃ text, LeavesOpen rs uri text) ∧
    (∀ text, LeavesOpen rs uri text →
      (run { load } rs).document? uri = some (.ofText load uri text) ∧
      (Document.ofText load uri text).source = text ∧
      lastPublished uri (publications { load } rs) =
        some (Document.ofText load uri text).diagnostics) ∧
    ∀ r : Request, r.uri = uri →
      (∀ text, LeavesOpen rs uri text → ((run { load } rs).handle r).2 =
        ((run { load } [.didOpen uri text]).handle r).2) ∧
      ((¬∃ text, LeavesOpen rs uri text) → ((run { load } rs).handle r).2 =
        (handle { load } r).2) ∧
      ((∃ text, LeavesOpen (rs ++ [r]) uri text) → publishedIn ((run { load } rs).handle r).2 =
        r.texts.map fun text => (uri, (Document.ofText load uri text).diagnostics)) := by
  have hload : ∀ rs, (run { load } rs).load = load := load_run { load }
  have hdocument := document?_run load uri
  simp only [← lastText_eq_some_iff]
  refine ⟨?_, ?_, ?_⟩
  · rw [mem_openUris_iff, hdocument]
    cases lastText uri rs <;> simp
  · intro text htext
    exact ⟨by rw [hdocument, htext]; rfl, (Document.ofText_agrees load uri text).1,
      lastPublished_run load uri htext⟩
  · rintro r rfl
    refine ⟨?_, ?_, ?_⟩
    · intro text htext
      have hopen : lastText r.uri [.didOpen r.uri text] = some text := if_pos rfl
      apply handle_congr (by rw [hload, hload])
      rw [hdocument, hdocument, htext, hopen]
    · intro hclosed
      have hnone : lastText r.uri rs = none := by
        simpa [Option.eq_none_iff_forall_ne_some] using hclosed
      apply handle_congr (hload rs)
      rw [hdocument, hnone]
      rfl
    · rintro ⟨text, htext⟩
      rw [lastText_append_singleton, Request.textAfter, if_pos rfl] at htext
      rw [publishedIn_handle_run, htext, Option.isSome_some, if_pos rfl]

/-- A history in which a document is opened, closed and opened again, and has its text changed in a
request that also names changes without a text, while another document comes and goes. -/
def reopened : List Request :=
  [.didOpen "a" "x: y", .didOpen "b" "z: z", .didClose "a", .didOpen "a" "v: w",
    .didChange "b" [some ""], .didChange "a" [none, some "x: \"y\"", none], .didClose "b"]

theorem run_history_reopened :
    LeavesOpen reopened "a" "x: \"y\"" ∧
    (run {} reopened).document? "a" = some (.ofText Loading.loader "a" "x: \"y\"") ∧
    "b" ∉ (run {} reopened).openUris := by
  have hleaves : LeavesOpen reopened "a" "x: \"y\"" := lastText_eq_some_iff.mp (by decide)
  have hclosed : ¬∃ text, LeavesOpen reopened "b" text := by
    have hnone : lastText "b" reopened = none := by decide
    simp [← lastText_eq_some_iff, hnone]
  exact ⟨hleaves, ((run_history Loading.loader reopened "a").2.1 _ hleaves).1,
    mt (run_history Loading.loader reopened "b").1.mp hclosed⟩

end Session

end GrammarServer
