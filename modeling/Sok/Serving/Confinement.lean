import Sok.Foundation.PathWalk
import Sok.Handler

/-!
# Which files a request can name

The handlers put the path of the request line behind the root directory of the
site, as text, and nothing looks at its components.  A location is the list of
names that is left when `.`, `..` and doubled slashes are resolved, and a file is
`Inside` a root when its location lies at or below that of the root.

`inside_requestedFile_iff` says exactly which paths stay inside.  The text of the
path is walked from the joint, the place where it is put behind the root: the
root itself when a slash separates them, otherwise the directory above, from
which the walk begins with the last name of the root and the path glued to it.
The walk may climb above the joint only if it names again what it climbed out of.
-/

namespace Sok.Serving

open PathWalk

/-! ## Locations -/

abbrev slash : UInt8 := 47

/-- What a system call sees of a string: `c_str()` ends at the first NUL. -/
def osPath (s : Bytes) : Bytes :=
  s.takeWhile (· != 0)

/-- The component a piece between two slashes stands for. -/
def component? (piece : Bytes) : Option (Component Bytes) :=
  if piece = [] ∨ piece = ascii "." then none
  else if piece = ascii ".." then some .up
  else some (.name piece)

def components (s : Bytes) : List (Component Bytes) :=
  (s.splitOn slash).filterMap component?

/-- The location a relative text starts from. -/
def base (cwd : List Bytes) (s : Bytes) : List Bytes :=
  if s.head? = some slash then [] else cwd

/-- The location of a path in a process with working directory `cwd`. -/
def locate (cwd : List Bytes) (s : Bytes) : List Bytes :=
  walk (base cwd (osPath s)) (components (osPath s))

/-- The file lies at or below the root. -/
def Inside (cwd : List Bytes) (rootDir file : Bytes) : Prop :=
  locate cwd rootDir <+: locate cwd file

instance (cwd : List Bytes) (rootDir file : Bytes) : Decidable (Inside cwd rootDir file) :=
  inferInstanceAs (Decidable (_ <+: _))

/-! ## The condition on the path -/

/-- The text behind the last slash of the root. -/
def lastName (rootDir : Bytes) : Bytes :=
  rootDir.rtakeWhile (· != slash)

/-- The text of the root up to its last slash. -/
def parentText (rootDir : Bytes) : Bytes :=
  rootDir.rdropWhile (· != slash)

/-- Where the walk along the path starts, and the text it walks along. -/
def joint (cwd : List Bytes) (rootDir path : Bytes) : List Bytes × Bytes :=
  if path.head? = some slash ∨ lastName rootDir = [] then (locate cwd rootDir, path)
  else (locate cwd (parentText rootDir), lastName rootDir ++ path)

/-- Whatever part of the root the walk climbs out of, it names again. -/
def Returns (cwd : List Bytes) (rootDir path : Bytes) : Prop :=
  let walked := joint cwd rootDir path
  let effect := climb (components walked.2)
  (locate cwd rootDir).drop (walked.1.length - effect.ups) <+: effect.names

instance (cwd : List Bytes) (rootDir path : Bytes) : Decidable (Returns cwd rootDir path) :=
  inferInstanceAs (Decidable (_ <+: _))

/-- The condition under which a path names a file inside the root. -/
def PathConfined (cwd : List Bytes) (rootDir path : Bytes) : Prop :=
  path = ascii "/" ∨ 0 ∈ rootDir ∨ Returns cwd rootDir (osPath path)

/-! ## Components of a text that is put together -/

/-- The text is empty or ends in a slash. -/
def EndsInSlash (s : Bytes) : Prop :=
  s = [] ∨ ∃ front, s = front ++ [slash]

@[simp] theorem components_nil : components [] = [] := rfl

theorem components_append_slash (first second : Bytes) :
    components (first ++ slash :: second) = components first ++ components second := by
  rw [components, List.splitOn_append_cons_self, List.filterMap_append, components, components]

theorem components_append {first : Bytes} (h : EndsInSlash first) (second : Bytes) :
    components (first ++ second) = components first ++ components second := by
  rcases h with rfl | ⟨front, rfl⟩
  · simp
  · rw [List.append_assoc, List.singleton_append, components_append_slash,
      components_append_slash, components_nil, List.append_nil]

theorem components_slash (s : Bytes) : components (slash :: s) = components s := by
  simpa using components_append_slash [] s

theorem length_components_le {s : Bytes} (h : slash ∉ s) : (components s).length ≤ 1 := by
  rw [components, List.splitOn_eq_singleton h]
  exact List.length_filterMap_le component? [s]

theorem slash_notMem_lastName (rootDir : Bytes) : slash ∉ lastName rootDir := by
  intro h
  rw [lastName, List.rtakeWhile, List.mem_reverse] at h
  simpa using List.mem_takeWhile_imp h

theorem parentText_append_lastName (rootDir : Bytes) :
    parentText rootDir ++ lastName rootDir = rootDir :=
  List.rdropWhile_append_rtakeWhile

theorem endsInSlash_parentText (rootDir : Bytes) : EndsInSlash (parentText rootDir) := by
  by_cases hnil : parentText rootDir = []
  · exact Or.inl hnil
  · refine Or.inr ⟨(parentText rootDir).dropLast, ?_⟩
    have hlast := List.rdropWhile_last_not (· != slash) rootDir hnil
    have hslash : (parentText rootDir).getLast hnil = slash := by simpa [parentText] using hlast
    rw [← hslash, List.dropLast_append_getLast]

/-! ## NUL bytes -/

theorem osPath_eq_self {s : Bytes} (h : 0 ∉ s) : osPath s = s := by
  have hall : ∀ b ∈ s, (b != 0) = true := fun b hb => by
    simpa using fun heq : b = 0 => h (heq ▸ hb)
  exact List.takeWhile_eq_self_iff.mpr hall

theorem osPath_append_of_notMem {s : Bytes} (h : 0 ∉ s) (t : Bytes) :
    osPath (s ++ t) = s ++ osPath t := by
  have hall : ∀ b ∈ s, (b != 0) = true := fun b hb => by
    simpa using fun heq : b = 0 => h (heq ▸ hb)
  exact List.takeWhile_append_of_pos hall

theorem osPath_append_of_mem {s : Bytes} (h : 0 ∈ s) (t : Bytes) :
    osPath (s ++ t) = osPath s := by
  induction s with
  | nil => simp at h
  | cons b s ih =>
      by_cases hb : b = 0
      · simp [osPath, hb]
      · have hs : 0 ∈ s := (List.mem_cons.mp h).resolve_left (Ne.symm hb)
        have hrec := ih hs
        simp only [osPath] at hrec ⊢
        rw [List.cons_append, List.takeWhile_cons_of_pos (by simpa using hb),
          List.takeWhile_cons_of_pos (by simpa using hb), hrec]

/-! ## A path behind the root -/

theorem base_append {s : Bytes} (hne : s ≠ []) (cwd : List Bytes) (t : Bytes) :
    base cwd (s ++ t) = base cwd s := by
  obtain ⟨b, s, rfl⟩ := List.exists_cons_of_ne_nil hne
  rfl

/-- The file is where the walk from the joint ends, and the root is on one line
with the joint. -/
theorem locate_joint (cwd : List Bytes) {rootDir : Bytes} (hroot : rootDir ≠ [])
    (hnul : 0 ∉ rootDir) (path : Bytes) :
    let walked := joint cwd rootDir (osPath path)
    locate cwd (rootDir ++ path) = walk walked.1 (components walked.2) ∧
      (locate cwd rootDir <+: walked.1 ∨ walked.1 <+: locate cwd rootDir) := by
  have hfile : locate cwd (rootDir ++ path) =
      walk (base cwd rootDir) (components (rootDir ++ osPath path)) := by
    rw [locate, osPath_append_of_notMem hnul, base_append hroot]
  have hloc : locate cwd rootDir = walk (base cwd rootDir) (components rootDir) := by
    rw [locate, osPath_eq_self hnul]
  generalize osPath path = t at hfile
  simp only [joint]
  split
  · -- a slash separates the root and the path
    rename_i hseam
    refine ⟨?_, Or.inl List.prefix_rfl⟩
    rw [hfile, hloc, ← walk_append]
    congr 1
    rcases hseam with hhead | hlast
    · obtain ⟨s, rfl⟩ : ∃ s, t = slash :: s := by
        cases t with
        | nil => simp at hhead
        | cons b s => exact ⟨s, by simpa using hhead⟩
      rw [components_append_slash, components_slash]
    · have hparent : parentText rootDir = rootDir := by
        simpa [hlast] using parentText_append_lastName rootDir
      exact components_append (hparent ▸ endsInSlash_parentText rootDir) t
  · -- the path is glued to the last name of the root
    rename_i hglued
    rw [not_or] at hglued
    have hparentNul : 0 ∉ parentText rootDir := fun h => hnul <| by
      rw [← parentText_append_lastName rootDir]
      exact List.mem_append_left _ h
    -- a root without a slash is relative, as its empty parent is
    have hstart : locate cwd (parentText rootDir) =
        walk (base cwd rootDir) (components (parentText rootDir)) := by
      rw [locate, osPath_eq_self hparentNul]
      congr 1
      by_cases hnil : parentText rootDir = []
      · have hself : lastName rootDir = rootDir := by
          simpa [hnil] using parentText_append_lastName rootDir
        have hhead : rootDir.head? ≠ some slash := fun h =>
          slash_notMem_lastName rootDir (hself.symm ▸ List.mem_of_mem_head? h)
        simp [base, hnil, hhead]
      · rw [← base_append hnil cwd (lastName rootDir), parentText_append_lastName]
    have hbehind : ∀ text, walk (base cwd rootDir) (components (parentText rootDir ++ text)) =
        walk (locate cwd (parentText rootDir)) (components text) := by
      intro text
      rw [components_append (endsInSlash_parentText rootDir), walk_append, hstart]
    constructor
    · rw [hfile, ← hbehind, ← List.append_assoc, parentText_append_lastName]
    · have hrootLoc : locate cwd rootDir =
          walk (locate cwd (parentText rootDir)) (components (lastName rootDir)) := by
        rw [hloc, ← hbehind, parentText_append_lastName]
      rw [hrootLoc]
      exact line_walk (length_components_le (slash_notMem_lastName rootDir))

/-- A path behind the root stays inside exactly when it returns to what it climbs out of. -/
theorem inside_append_iff {cwd : List Bytes} {rootDir : Bytes} (hroot : rootDir ≠ [])
    (hnul : 0 ∉ rootDir) (path : Bytes) :
    Inside cwd rootDir (rootDir ++ path) ↔ Returns cwd rootDir (osPath path) := by
  obtain ⟨hwalk, hline⟩ := locate_joint cwd hroot hnul path
  rw [Inside, hwalk, below_walk_iff _ hline, Returns]

theorem inside_of_nul {cwd : List Bytes} {rootDir : Bytes} (hnul : 0 ∈ rootDir) (path : Bytes) :
    Inside cwd rootDir (rootDir ++ path) := by
  rw [Inside, locate, locate, osPath_append_of_mem hnul]

theorem requestedFile_eq {rootDir path : Bytes} (hpath : path ≠ []) :
    requestedFile rootDir path =
      if path = ascii "/" then rootDir ++ ascii "/index.html" else rootDir ++ path := by
  simp [requestedFile, hpath]

/-- The file a GET or HEAD names is inside the root exactly when its path is confined. -/
theorem inside_requestedFile_iff {cwd : List Bytes} {rootDir path : Bytes} (hroot : rootDir ≠ [])
    (hpath : path ≠ []) :
    Inside cwd rootDir (requestedFile rootDir path) ↔ PathConfined cwd rootDir path := by
  rw [requestedFile_eq hpath]
  by_cases hnul : 0 ∈ rootDir
  · have hinside : Inside cwd rootDir
        (if path = ascii "/" then rootDir ++ ascii "/index.html" else rootDir ++ path) := by
      split <;> exact inside_of_nul hnul _
    exact iff_of_true hinside (Or.inr (Or.inl hnul))
  · by_cases hindex : path = ascii "/"
    · rw [if_pos hindex]
      refine iff_of_true ?_ (Or.inl hindex)
      rw [inside_append_iff hroot hnul, Returns]
      have hups : (climb (components (ascii "/index.html"))).ups = 0 := by decide
      have hseam : joint cwd rootDir (osPath (ascii "/index.html")) =
          (locate cwd rootDir, ascii "/index.html") := if_pos (Or.inl (by decide))
      simp [hseam, hups]
    · rw [if_neg hindex, inside_append_iff hroot hnul, PathConfined]
      simp [hindex, hnul]

/-! ## The handlers -/

/-- Every file the run passes to the cache or opens lies inside the root. -/
def Confined {ε : Type} (cwd : List Bytes) (rootDir : Bytes) (run : HandlerRun ε) : Prop :=
  ∀ file ∈ run.lookups ++ run.opened, Inside cwd rootDir file

/-- If the request names a file, its path is confined. -/
def RequestConfined (cwd : List Bytes) (rootDir request : Bytes) : Prop :=
  NamesFile request → PathConfined cwd rootDir (requestLine request).path

theorem forall_lookups_iff (cwd : List Bytes) {site : SiteInfo} (hroot : site.rootDir ≠ [])
    (malformed : RequestLine → Response) (thrown : Option Response) (env : Env)
    (request : Bytes) :
    (∀ file ∈ (answerWith malformed thrown env site request).lookups,
        Inside cwd site.rootDir file) ↔ RequestConfined cwd site.rootDir request := by
  rw [lookups_answerWith, RequestConfined]
  by_cases hnames : NamesFile request
  · have hpath : (requestLine request).path ≠ [] := fun h => hnames.1 (Or.inr (Or.inl h))
    simp [hnames, inside_requestedFile_iff hroot hpath]
  · simp [hnames]

/-- What is opened has been looked up, so the lookups decide. -/
theorem confined_iff_of_opened {ε : Type} {cwd : List Bytes} {rootDir : Bytes}
    {run : HandlerRun ε} (hopened : ∀ file ∈ run.opened, file ∈ run.lookups) :
    Confined cwd rootDir run ↔ ∀ file ∈ run.lookups, Inside cwd rootDir file := by
  constructor
  · intro h file hfile
    exact h file (List.mem_append_left _ hfile)
  · intro h file hfile
    rcases List.mem_append.mp hfile with hfile | hfile
    · exact h file hfile
    · exact h file (hopened file hfile)

theorem handleHttp_confined_iff (cwd : List Bytes) {site : SiteInfo} (hroot : site.rootDir ≠ [])
    (env : Env) (recvs : List RecvResult) (writes : List WriteResult) :
    Confined cwd site.rootDir (HttpUtil.handleHttp env site recvs writes) ↔
      (HttpUtil.Answers recvs → RequestConfined cwd site.rootDir (HttpUtil.received recvs)) := by
  by_cases hanswers : HttpUtil.Answers recvs
  · obtain ⟨r, hr⟩ := HttpUtil.exists_response env site (HttpUtil.received recvs)
    rw [HttpUtil.handleHttp_answers env site writes hanswers hr, confined_iff_of_opened]
    · simp only [hanswers, true_imp_iff]
      exact forall_lookups_iff cwd hroot _ _ env (HttpUtil.received recvs)
    · intro file hfile
      obtain ⟨rfl, hne⟩ := HttpUtil.opened_sendHttpResponse hfile
      exact filePath_answerWith (fun _ => rfl) (by simp [Response.serverError]) hr hne
  · rw [HttpUtil.handleHttp_silent env site writes hanswers]
    simp [Confined, hanswers]

theorem handleHttps_confined_iff (cwd : List Bytes) {site : SiteInfo} (hroot : site.rootDir ≠ [])
    (env : Env) (hasEntry : Bool) (results : HttpsUtil.TlsResults) :
    Confined cwd site.rootDir (HttpsUtil.handleHttps env site hasEntry results).run ↔
      (HttpsUtil.Answers hasEntry results →
        RequestConfined cwd site.rootDir (HttpsUtil.received results)) := by
  by_cases hanswers : HttpsUtil.Answers hasEntry results
  · have hlookups : (∀ file ∈ (HttpsUtil.answer env site (HttpsUtil.received results)).lookups,
        Inside cwd site.rootDir file) ↔
          RequestConfined cwd site.rootDir (HttpsUtil.received results) :=
      forall_lookups_iff cwd hroot _ _ env _
    rw [HttpsUtil.handleHttps_answers env site hanswers]
    split
    · rw [confined_iff_of_opened (by simp)]
      simpa only [hanswers, true_imp_iff] using hlookups
    · rename_i r hr
      rw [confined_iff_of_opened]
      · simpa [hanswers] using hlookups
      · intro file hfile
        obtain ⟨rfl, hne⟩ := HttpsUtil.opened_sendHttpsResponse hfile
        exact filePath_answerWith (fun _ => rfl) (by simp) hr hne
  · obtain ⟨returned, unread, hsilent⟩ := HttpsUtil.handleHttps_silent env site hanswers
    simp [hsilent, Confined, hanswers, HttpsUtil.silent]

/-- **Site confinement.**  The files a handler looks up and opens lie inside the
root directory of the site exactly when the path of the request it answers is
confined. -/
theorem site_confinement_iff (cwd : List Bytes) (env : Env) (site : SiteInfo)
    (hroot : site.rootDir ≠ []) :
    (∀ recvs writes, Confined cwd site.rootDir (HttpUtil.handleHttp env site recvs writes) ↔
      (HttpUtil.Answers recvs → RequestConfined cwd site.rootDir (HttpUtil.received recvs))) ∧
    (∀ hasEntry results,
      Confined cwd site.rootDir (HttpsUtil.handleHttps env site hasEntry results).run ↔
        (HttpsUtil.Answers hasEntry results →
          RequestConfined cwd site.rootDir (HttpsUtil.received results))) :=
  ⟨handleHttp_confined_iff cwd hroot env, handleHttps_confined_iff cwd hroot env⟩

/-- A site whose root has a neighbour with a private file. -/
def blog : SiteInfo := ⟨ascii "blog", ascii "/srv/blog"⟩

/-- A request that climbs out of the root. -/
def climbing : List RecvResult :=
  [.data ⟨ascii "GET /../shop/key HTTP/1.1\r\n\r\n", by decide, by decide⟩]

/-- `/srv/blog/../shop/key` is the neighbour's file, and it is looked up. -/
theorem site_confinement_fails :
    ¬ ∀ (cwd : List Bytes) (env : Env) (site : SiteInfo), site.rootDir ≠ [] →
      ∀ recvs writes, Confined cwd site.rootDir (HttpUtil.handleHttp env site recvs writes) := by
  intro h
  have hconfined := h [] (Env.ofFiles [(ascii "/srv/blog/../shop/key", ascii "secret")]) blog
    (by decide) climbing [.full, .full]
  exact absurd (hconfined (ascii "/srv/blog/../shop/key") (by decide)) (by decide)

/-- An ordinary path is confined. -/
theorem site_confinement_blog :
    Confined [] blog.rootDir (HttpUtil.handleHttp (Env.ofFiles []) blog
      [.data ⟨ascii "GET /a/../b HTTP/1.1\r\n\r\n", by decide, by decide⟩] []) :=
  ((site_confinement_iff [] (Env.ofFiles []) blog (by decide)).1 _ _).mpr
    fun _ _ => Or.inr (Or.inr (by decide))

end Sok.Serving
