import Sok.Http.Written
import Sok.Serving.HeaderBlock

/-!
# Letter case

`handle_http` looks up `Connection` in a map whose keys are compared as they are, and compares
the value with two spellings of `keep-alive`.  So a request with a field that asks to keep the
connection can be spelled so that the handler sees the wish, and so that it does not.  Any
other request is answered alike in every spelling.

## Strategy

Two spellings have header blocks of the same length and the same words, so a response can
differ only in the wish to keep the connection (`Recased.answer_eq`), and that is decided
by the last field that is named `Connection` as it is written there.  A request that asks to
keep the connection has a spelling that is understood (`exists_loud`) and one that is not
(`exists_quiet`), so one of the two is answered otherwise; one that does not ask has no
spelling that is understood.
-/

namespace Sok

open FileCache (toLower)

/-! ## Spellings -/

/-- The text in lower case. -/
def lower (s : Bytes) : Bytes :=
  s.map toLower

def connection : Bytes := ascii "connection"

def keepAlive : Bytes := ascii "keep-alive"

/-- The second field is the first with other letter case in its name and, for a `Connection` field,
in its value. -/
structure Field.Recased (a b : Field) : Prop where
  name : lower b.name = lower a.name
  value : lower b.value = lower a.value
  same : lower a.name ≠ connection → b.value = a.value
  before : b.before = a.before
  after : b.after = a.after

theorem Field.Recased.refl (field : Field) : field.Recased field :=
  ⟨rfl, rfl, fun _ => rfl, rfl, rfl⟩

namespace WrittenRequest

/-- The second request is the first in another spelling. -/
structure Recased (q r : WrittenRequest) : Prop where
  method : r.method = q.method
  path : r.path = q.path
  version : r.version = q.version
  fields : List.Forall₂ Field.Recased q.fields r.fields
  body : r.body = q.body

/-- Some `Connection` field has the value `keep-alive`, in whatever spelling. -/
def AsksToKeep (q : WrittenRequest) : Prop :=
  ∃ field ∈ q.fields, lower field.name = connection ∧ lower field.value = keepAlive

end WrittenRequest

/-! ## Answering alike -/

/-- Of both requests as much has come, the header block and whatever is there of the body. -/
def ReceivedAlike (q r : WrittenRequest) (recvs recvs' : List RecvResult) : Prop :=
  ∃ n, q.head.length ≤ n ∧ HttpUtil.received recvs = q.bytes.take n ∧
    HttpUtil.received recvs' = r.bytes.take n

/-- Every spelling of the request gets the same response bytes, and the connection is kept for all
or for none. -/
def CaseInsensitive (env : Env) (site : SiteInfo) (q : WrittenRequest) : Prop :=
  ∀ r, q.Recased r → ∀ recvs recvs', ReceivedAlike q r recvs recvs' → ∀ writes,
    (HttpUtil.handleHttp env site recvs writes).wire =
        (HttpUtil.handleHttp env site recvs' writes).wire ∧
      (HttpUtil.handleHttp env site recvs writes).returned =
        (HttpUtil.handleHttp env site recvs' writes).returned

/-! ## Lengths -/

theorem length_eq_of_lower_eq {s t : Bytes} (h : lower s = lower t) : s.length = t.length := by
  have hlength := congrArg List.length h
  rwa [lower, lower, List.length_map, List.length_map] at hlength

theorem Field.Recased.length_render {a b : Field} (h : a.Recased b) :
    b.render.length = a.render.length := by
  simp [Field.render, Field.line, length_eq_of_lower_eq h.name, length_eq_of_lower_eq h.value,
    h.before, h.after]

theorem length_flatMap_render {fields fields' : List Field}
    (h : List.Forall₂ Field.Recased fields fields') :
    (fields'.flatMap Field.render).length = (fields.flatMap Field.render).length := by
  induction h with
  | nil => rfl
  | cons hfield _ ih => simp [hfield.length_render, ih]

namespace WrittenRequest

variable {q r : WrittenRequest}

theorem Recased.length_head (h : q.Recased r) : r.head.length = q.head.length := by
  simp [head, line, h.method, h.path, h.version, length_flatMap_render h.fields]

theorem take_bytes (q : WrittenRequest) {n : ℕ} (h : q.head.length ≤ n) :
    q.bytes.take n = q.head ++ q.body.take (n - q.head.length) := by
  rw [bytes, List.take_append, List.take_of_length_le h]

/-! ## The answer -/

/-- The handler keeps the connection. -/
def Keeps (q : WrittenRequest) : Prop :=
  ∃ value, lastValue q.fields (ascii "Connection") = some value ∧
    (value = ascii "keep-alive" ∨ value = ascii "Keep-Alive")

theorem keepAlive_head_iff (q : WrittenRequest) (more : Bytes) :
    (requestLine (q.head ++ more)).keepAlive = true ↔ q.Keeps := by
  rw [RequestLine.keepAlive, headers_head, Keeps]
  cases lastValue q.fields (ascii "Connection") with
  | none => simp
  | some value => simp

/-- Two spellings are answered alike if both keep the connection or neither does. -/
theorem Recased.answer_eq (h : q.Recased r) (env : Env) (site : SiteInfo) (more : Bytes)
    (hkeep : (requestLine (q.head ++ more)).keepAlive =
      (requestLine (r.head ++ more)).keepAlive) :
    HttpUtil.answer env site (q.head ++ more) = HttpUtil.answer env site (r.head ++ more) := by
  have hq := q.not_malformed more
  have hr := r.not_malformed more
  simp only [HttpUtil.answer, answerWith, ne_nil_of_not_malformed hq, ne_nil_of_not_malformed hr,
    hq, hr, method_head, path_head, version_head, h.method, h.path, h.version, hkeep,
    postBody_head, if_false]

theorem cacheThrows_head (q : WrittenRequest) (env : Env) (site : SiteInfo) (more : Bytes) :
    CacheThrows env site (q.head ++ more) ↔
      (q.method = methodGet ∨ q.method = methodHead) ∧
        env.get (requestedFile site.rootDir q.path) = .throws := by
  have hwell := q.not_malformed more
  simp only [CacheThrows, NamesFile, hwell, not_false_eq_true, true_and, method_head, path_head]

theorem Recased.cacheThrows_iff (h : q.Recased r) (env : Env) (site : SiteInfo)
    (more more' : Bytes) :
    CacheThrows env site (r.head ++ more) ↔ CacheThrows env site (q.head ++ more') := by
  rw [cacheThrows_head, cacheThrows_head, h.method, h.path]

theorem Recased.refl (q : WrittenRequest) : q.Recased q :=
  ⟨rfl, rfl, rfl, List.forall₂_same.mpr fun field _ => Field.Recased.refl field, rfl⟩

end WrittenRequest

/-! ## The last Connection field -/

theorem lastValue_eq_none {fields : List Field} {name : Bytes}
    (h : ∀ field ∈ fields, field.name ≠ name) : lastValue fields name = none := by
  have hfilter : fields.filter (·.name == name) = [] := by
    rw [List.filter_eq_nil_iff]
    intro field hfield
    simpa using h field hfield
  rw [lastValue, hfilter]
  rfl

theorem lastValue_append_cons {front back : List Field} {field : Field}
    (h : ∀ other ∈ back, other.name ≠ field.name) :
    lastValue (front ++ field :: back) field.name = some field.value := by
  have hfilter : back.filter (·.name == field.name) = [] := by
    rw [List.filter_eq_nil_iff]
    intro other hother
    simpa using h other hother
  simp [lastValue, List.filter_append, hfilter]

theorem exists_field_of_lastValue {fields : List Field} {name value : Bytes}
    (h : lastValue fields name = some value) :
    ∃ field ∈ fields, field.name = name ∧ field.value = value := by
  obtain ⟨field, hlast, hvalue⟩ := Option.map_eq_some_iff.mp h
  have hmem := List.mem_of_getLast? hlast
  rw [List.mem_filter] at hmem
  exact ⟨field, hmem.1, by simpa using hmem.2, hvalue⟩

theorem exists_of_mem_right {fields fields' : List Field} {field : Field}
    (h : List.Forall₂ Field.Recased fields fields') (hfield : field ∈ fields') :
    ∃ original ∈ fields, original.Recased field := by
  induction h with
  | nil => exact absurd hfield (by simp)
  | cons hhead _ ih =>
      rcases List.mem_cons.mp hfield with rfl | hrest
      · exact ⟨_, List.mem_cons_self, hhead⟩
      · obtain ⟨original, horiginal, hrecased⟩ := ih hrest
        exact ⟨original, List.mem_cons_of_mem _ horiginal, hrecased⟩

/-! ## Two spellings of one field -/

namespace Field

/-- A `Connection` field in lower case, which the handler does not look up. -/
def quiet (field : Field) : Field :=
  if lower field.name = connection then
    { field with
      name := connection
      name_trimmed := by decide
      name_colon := by decide
      name_lf := by decide }
  else field

/-- A field in the spelling that the handler looks for. -/
def loud (field : Field) : Field :=
  { field with
    name := ascii "Connection"
    value := keepAlive
    name_trimmed := by decide
    name_colon := by decide
    name_lf := by decide
    value_trimmed := by decide
    value_lf := by decide }

theorem recased_quiet (field : Field) : field.Recased field.quiet := by
  unfold quiet
  split
  · rename_i hname
    exact ⟨hname.symm ▸ rfl, rfl, fun _ => rfl, rfl, rfl⟩
  · exact Recased.refl field

theorem quiet_name_ne (field : Field) : field.quiet.name ≠ ascii "Connection" := by
  unfold quiet
  split
  · exact (by decide : connection ≠ ascii "Connection")
  · rename_i hname
    intro heq
    rw [heq] at hname
    exact hname (by decide)

theorem recased_loud {field : Field} (hname : lower field.name = connection)
    (hvalue : lower field.value = keepAlive) : field.Recased field.loud := by
  refine ⟨?_, ?_, fun hother => absurd hname hother, rfl, rfl⟩
  · rw [hname]
    exact (by decide : lower (ascii "Connection") = connection)
  · rw [hvalue]
    exact (by decide : lower keepAlive = keepAlive)

end Field

namespace WrittenRequest

variable {q r : WrittenRequest}

theorem Recased.asksToKeep (h : q.Recased r) (hkeeps : r.Keeps) : q.AsksToKeep := by
  obtain ⟨value, hvalue, hspelling⟩ := hkeeps
  obtain ⟨field, hfield, hname, rfl⟩ := exists_field_of_lastValue hvalue
  obtain ⟨original, horiginal, hrecased⟩ := exists_of_mem_right h.fields hfield
  refine ⟨original, horiginal, ?_, ?_⟩
  · rw [← hrecased.name, hname]
    decide
  · rw [← hrecased.value]
    rcases hspelling with hsmall | hlarge
    · rw [hsmall]
      decide
    · rw [hlarge]
      decide

theorem recased_map {f : Field → Field} (hf : ∀ field : Field, field.Recased (f field))
    (fields : List Field) : List.Forall₂ Field.Recased fields (fields.map f) := by
  rw [List.forall₂_map_right_iff]
  exact List.forall₂_same.mpr fun field _ => hf field

/-- With every `Connection` field in lower case the request is not kept. -/
theorem exists_quiet (q : WrittenRequest) : ∃ r, q.Recased r ∧ ¬ r.Keeps := by
  refine ⟨{ q with fields := q.fields.map Field.quiet },
    ⟨rfl, rfl, rfl, recased_map Field.recased_quiet q.fields, rfl⟩, ?_⟩
  rintro ⟨value, hvalue, -⟩
  have hnone : lastValue (q.fields.map Field.quiet) (ascii "Connection") = none := by
    refine lastValue_eq_none fun field hfield => ?_
    obtain ⟨original, -, rfl⟩ := List.mem_map.mp hfield
    exact original.quiet_name_ne
  exact absurd (hnone.symm.trans hvalue) (by simp)

/-- With one that asks for it in the spelling of the handler, and those behind it in lower case,
it is. -/
theorem AsksToKeep.exists_loud (h : q.AsksToKeep) : ∃ r, q.Recased r ∧ r.Keeps := by
  obtain ⟨field, hfield, hname, hvalue⟩ := h
  obtain ⟨front, back, hsplit⟩ := List.append_of_mem hfield
  refine ⟨{ q with fields := front ++ field.loud :: back.map Field.quiet },
    ⟨rfl, rfl, rfl, ?_, rfl⟩, ?_⟩
  · rw [hsplit]
    have hfront : List.Forall₂ Field.Recased front front :=
      List.forall₂_same.mpr fun other _ => Field.Recased.refl other
    exact List.rel_append hfront
      (List.Forall₂.cons (Field.recased_loud hname hvalue) (recased_map Field.recased_quiet back))
  · have hback : ∀ other ∈ back.map Field.quiet, other.name ≠ field.loud.name := by
      intro other hother
      obtain ⟨original, -, rfl⟩ := List.mem_map.mp hother
      exact original.quiet_name_ne
    exact ⟨keepAlive, lastValue_append_cons hback, Or.inl rfl⟩

/-- So there is a spelling that the handler takes for the other wish. -/
theorem AsksToKeep.exists_respelled (h : q.AsksToKeep) :
    ∃ r, q.Recased r ∧ (r.Keeps ↔ ¬ q.Keeps) := by
  by_cases hkeeps : q.Keeps
  · obtain ⟨r, hr, hnot⟩ := q.exists_quiet
    exact ⟨r, hr, iff_of_false hnot (not_not.mpr hkeeps)⟩
  · obtain ⟨r, hr, hkept⟩ := h.exists_loud
    exact ⟨r, hr, iff_of_true hkept hkeeps⟩

end WrittenRequest

/-! ## Runs -/

section

variable {env : Env} {site : SiteInfo} {q r : WrittenRequest} {recvs recvs' : List RecvResult}

theorem ReceivedAlike.exists_more (h : ReceivedAlike q r recvs recvs') (hrecased : q.Recased r) :
    ∃ more, HttpUtil.received recvs = q.head ++ more ∧
      HttpUtil.received recvs' = r.head ++ more := by
  obtain ⟨n, hn, hq, hr⟩ := h
  have hn' : r.head.length ≤ n := hrecased.length_head ▸ hn
  refine ⟨q.body.take (n - q.head.length), hq.trans (q.take_bytes hn), ?_⟩
  rw [hr, r.take_bytes hn', hrecased.body, hrecased.length_head]

theorem answers_of_head {more : Bytes} (h : HttpUtil.received recvs = q.head ++ more) :
    HttpUtil.Answers recvs := by
  apply HttpUtil.answers_of_headerEnd
  rw [h]
  exact q.headerEnd_suffix_head.isInfix.trans (List.prefix_append q.head more).isInfix

/-- Runs that decide on the same response do the same. -/
theorem same_of_response_eq (hanswers : HttpUtil.Answers recvs) (hanswers' : HttpUtil.Answers recvs')
    (h : (HttpUtil.answer env site (HttpUtil.received recvs)).response =
      (HttpUtil.answer env site (HttpUtil.received recvs')).response) (writes : List WriteResult) :
    (HttpUtil.handleHttp env site recvs writes).wire =
        (HttpUtil.handleHttp env site recvs' writes).wire ∧
      (HttpUtil.handleHttp env site recvs writes).returned =
        (HttpUtil.handleHttp env site recvs' writes).returned := by
  obtain ⟨response, hresponse⟩ := HttpUtil.exists_response env site (HttpUtil.received recvs)
  rw [HttpUtil.handleHttp_answers env site writes hanswers hresponse,
    HttpUtil.handleHttp_answers env site writes hanswers' (h.symm.trans hresponse)]
  exact ⟨rfl, rfl⟩

theorem caseInsensitive_of_response_eq (h : ∀ r, q.Recased r → ∀ more,
      (HttpUtil.answer env site (q.head ++ more)).response =
        (HttpUtil.answer env site (r.head ++ more)).response) :
    CaseInsensitive env site q := by
  intro r hrecased recvs recvs' halike writes
  obtain ⟨more, hq, hr⟩ := halike.exists_more hrecased
  refine same_of_response_eq (answers_of_head hq) (answers_of_head hr) ?_ writes
  rw [hq, hr, h r hrecased more]

/-- A request that no field asks to keep is not kept in any spelling. -/
theorem caseInsensitive_of_not_asksToKeep (env : Env) (site : SiteInfo) (h : ¬ q.AsksToKeep) :
    CaseInsensitive env site q := by
  refine caseInsensitive_of_response_eq fun r hrecased more => ?_
  have hkeep : (requestLine (q.head ++ more)).keepAlive =
      (requestLine (r.head ++ more)).keepAlive := by
    rw [Bool.eq_iff_iff, q.keepAlive_head_iff, r.keepAlive_head_iff]
    exact iff_of_false (fun hkept => h ((WrittenRequest.Recased.refl q).asksToKeep hkept))
      fun hkept => h (hrecased.asksToKeep hkept)
  rw [hrecased.answer_eq env site more hkeep]

/-- Neither is one that the cache throws on. -/
theorem caseInsensitive_of_cacheThrows (h : CacheThrows env site q.bytes) :
    CaseInsensitive env site q := by
  refine caseInsensitive_of_response_eq fun r hrecased more => ?_
  have hq : CacheThrows env site (q.head ++ more) :=
    ((WrittenRequest.Recased.refl q).cacheThrows_iff env site more q.body).mpr h
  have hr : CacheThrows env site (r.head ++ more) :=
    (hrecased.cacheThrows_iff env site more q.body).mpr h
  rw [HttpUtil.response_of_cacheThrows hq, HttpUtil.response_of_cacheThrows hr]

/-! ## A spelling that is answered otherwise -/

theorem values_connection (r : Response) :
    r.values (ascii "Connection") = some (ascii "keep-alive") ↔ r.keepAlive = true := by
  have hlength : ascii "Connection" ≠ ascii "Content-Length" := by decide
  have hserver : ascii "Connection" ≠ ascii "Server" := by decide
  have htype : ascii "Connection" ≠ ascii "Content-Type" := by decide
  cases hkeep : r.keepAlive <;> simp [Response.values, hkeep, hlength, hserver, htype]

/-- What is on the connection tells whether the connection is kept. -/
theorem exists_wire {more : Bytes} (hreceived : HttpUtil.received recvs = q.head ++ more)
    (hthrows : ¬ CacheThrows env site (q.head ++ more)) :
    ∃ values payload,
      readResponse (HttpUtil.handleHttp env site recvs [.full]).wire = some (values, payload) ∧
      (values (ascii "Connection") = some (ascii "keep-alive") ↔ q.Keeps) := by
  obtain ⟨response, hresponse, -, hkeep⟩ :=
    HttpUtil.exists_executed (q.not_malformed more) hthrows
  have hprintable := Serving.printable_http hresponse
  have hwrite : write response.header.length .full = .ok response.header.length := rfl
  obtain ⟨payload, hwire⟩ := HttpUtil.exists_payload env.openFile [] hwrite
  rw [← hreceived] at hresponse
  refine ⟨response.values, payload, ?_, ?_⟩
  · rw [HttpUtil.handleHttp_answers env site _ (answers_of_head hreceived) hresponse]
    show readResponse (HttpUtil.sendHttpResponse env.openFile response [.full]).wire = _
    rw [hwire, hprintable.notSplit.2.2]
  · rw [values_connection, hkeep, q.keepAlive_head_iff]

theorem received_socket (q : WrittenRequest) :
    HttpUtil.received (Socket.results ⟨q.bytes, true⟩) = q.bytes.take (blockEnd q.head.length) := by
  have hread := readLoop_results (q.find_headerEnd q.body) true
  rw [q.isHeader_head.four_le] at hread
  rw [HttpUtil.received, WrittenRequest.bytes, hread]

theorem receivedAlike_socket (h : q.Recased r) :
    ReceivedAlike q r (Socket.results ⟨q.bytes, true⟩) (Socket.results ⟨r.bytes, true⟩) := by
  refine ⟨blockEnd q.head.length, le_blockEnd _, received_socket q, ?_⟩
  rw [received_socket, h.length_head]

theorem not_caseInsensitive (hasks : q.AsksToKeep) (hthrows : ¬ CacheThrows env site q.bytes) :
    ¬ CaseInsensitive env site q := by
  intro hsame
  obtain ⟨r, hrecased, hother⟩ := hasks.exists_respelled
  have halike := receivedAlike_socket hrecased
  obtain ⟨more, hq, hr⟩ := halike.exists_more hrecased
  have hq' : ¬ CacheThrows env site (q.head ++ more) := fun h =>
    hthrows (((WrittenRequest.Recased.refl q).cacheThrows_iff env site more q.body).mp h)
  have hr' : ¬ CacheThrows env site (r.head ++ more) := fun h =>
    hthrows ((hrecased.cacheThrows_iff env site more q.body).mp h)
  obtain ⟨values, payload, hwire, hkeeps⟩ := exists_wire hq hq'
  obtain ⟨values', payload', hwire', hkeeps'⟩ := exists_wire hr hr'
  have hboth := (hsame r hrecased _ _ halike [.full]).1
  rw [hboth, hwire', Option.some.injEq, Prod.mk.injEq] at hwire
  rw [← hwire.1, hkeeps', hother] at hkeeps
  exact iff_not_self hkeeps.symm

end

/-! ## The condition -/

/-- `GET /` with a lower-case `connection: keep-alive`. -/
def lowerCaseRequest : WrittenRequest where
  method := methodGet
  path := ascii "/"
  version := http11
  fields := [Response.fieldOf connection keepAlive (by decide) (by decide)]
  body := []
  method_word := by decide
  path_word := by decide
  version_word := by decide

theorem lower_case_is_not_kept : ¬ CaseInsensitive pages shop lowerCaseRequest := by
  apply not_caseInsensitive
  · exact ⟨_, List.mem_singleton.mpr rfl, by decide, by decide⟩
  · intro hthrows
    exact absurd hthrows.2 (by decide)

/-- All spellings are answered alike unless a `Connection` field asks to keep the connection; an
exception of the cache closes it anyway. -/
theorem case_insensitive_iff (env : Env) (site : SiteInfo) (q : WrittenRequest) :
    CaseInsensitive env site q ↔ ¬ q.AsksToKeep ∨ CacheThrows env site q.bytes := by
  constructor
  · intro hsame
    by_contra hnot
    rw [not_or, not_not] at hnot
    exact not_caseInsensitive hnot.1 hnot.2 hsame
  · rintro (hasks | hthrows)
    · exact caseInsensitive_of_not_asksToKeep env site hasks
    · exact caseInsensitive_of_cacheThrows hthrows

end Sok
