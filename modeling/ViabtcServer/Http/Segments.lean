import Mathlib.Algebra.Order.BigOperators.Group.List
import Mathlib.Data.List.TakeWhile
import Mathlib.Algebra.Order.Ring.Nat
import Mathlib.Tactic.Ring
import ViabtcServer.Http.Request

/-!
# Requests in pieces

What the callbacks make of a request that comes in pieces: the last piece of the url,
of the name of a header and of the body, and the first piece of a value, up to its first
NUL.
-/

namespace ViabtcServer.Http

open Container
open Wire (Byte)

/-! ## Requests as they come -/

/-- What is taken of a header. -/
def HeaderPieces.taken (header : HeaderPieces) : List Byte × List Byte :=
  (header.field.getLast header.fieldSome, header.value.head header.valueSome)

/-- The header the pieces make up. -/
def HeaderPieces.whole (header : HeaderPieces) : List Byte × List Byte :=
  (header.field.flatten, header.value.flatten)

/-- Only the last piece of the name and the first of the value have content. -/
def HeaderPieces.Unsplit (header : HeaderPieces) : Prop :=
  header.field.dropLast.flatten = [] ∧ header.value.tail.flatten = []

/-- Headers put in a request one by one. -/
def setHeaders (request : HttpRequest) (headers : List (List Byte × List Byte)) : HttpRequest :=
  headers.foldl (fun request header => httpRequestSetHeader request header.1 header.2) request

/-- All headers of a request. -/
def Pieces.allHeaders (pieces : Pieces) : List HeaderPieces :=
  pieces.headers ++ pieces.trailers

/-- What `http_request_set_header` makes of the headers of a request. -/
def keepHeader (kept : Dict (List Byte) Header) (header : List Byte × List Byte) :
    Dict (List Byte) Header :=
  (httpRequestSetHeader { httpRequestNew with headers := kept } header.1 header.2).headers

/-- The headers of a request, as `http_request_set_header` keeps them. -/
def keptHeaders (headers : List (List Byte × List Byte)) : Dict (List Byte) Header :=
  headers.foldl keepHeader ∅

/-- The request the callbacks make of the pieces. -/
def Pieces.taken (pieces : Pieces) : HttpRequest where
  versionMajor := pieces.httpMajor
  versionMinor := pieces.httpMinor
  method := pieces.method
  headers := keptHeaders (pieces.allHeaders.map HeaderPieces.taken)
  url := pieces.url.getLast?
  body := pieces.body.getLast?

/-- A header among those of a request, with its full name and its full value. -/
def addHeader (headers : Dict (List Byte) Header) (header : List Byte × List Byte) :
    Dict (List Byte) Header :=
  let key := header.1.map lowerByte
  match dictFind headers key with
  | some entry =>
      dictReplace headers key { entry with val := entry.val ++ separator ++ header.2 }
  | none => dictReplace headers key ⟨header.1, header.2⟩

/-- The headers of a request as they are sent. -/
def sentHeaders (headers : List (List Byte × List Byte)) : Dict (List Byte) Header :=
  headers.foldl addHeader ∅

/-- The request the pieces make up. -/
def Pieces.whole (pieces : Pieces) : HttpRequest where
  versionMajor := pieces.httpMajor
  versionMinor := pieces.httpMinor
  method := pieces.method
  headers := sentHeaders (pieces.allHeaders.map HeaderPieces.whole)
  url := some pieces.url.flatten
  body := if pieces.body = [] then none else some pieces.body.flatten

/-- No callback before the last for the url, a name or the body, and none after the
first for a value, has content. -/
def Pieces.Unsplit (pieces : Pieces) : Prop :=
  pieces.url.dropLast.flatten = [] ∧ (∀ header ∈ pieces.allHeaders, header.Unsplit) ∧
    pieces.body.dropLast.flatten = []

/-- No value of a header has a NUL in it. -/
def Pieces.Clean (pieces : Pieces) : Prop :=
  ∀ header ∈ pieces.allHeaders, (0 : Byte) ∉ header.whole.2

/-- Two requests are the same to who reads them. -/
structure HttpRequest.Agrees (request other : HttpRequest) : Prop where
  versionMajor : request.versionMajor = other.versionMajor
  versionMinor : request.versionMinor = other.versionMinor
  method : request.method = other.method
  url : request.url = other.url
  body : request.body = other.body
  headers : ∀ key, dictFind request.headers key = dictFind other.headers key

/-! ## What the callbacks do -/

section Callbacks

variable {info : CltInfo} (settings : Settings)

/-- The two servers do the same. -/
theorem Settings.call_eq (info : CltInfo) (callback : Callback) :
    settings.call info callback = Settings.http.call info callback := by
  cases settings with
  | http => rfl
  | webSocket => cases callback <;> rfl

/-- When each piece replaces the one before, the last is kept. -/
theorem foldl_replaces {σ α : Type} (put : σ → α → σ)
    (replaces : ∀ s first second, put (put s first) second = put s second) {pieces : List α}
    (some_ : pieces ≠ []) (s : σ) : pieces.foldl put s = put s (pieces.getLast some_) := by
  induction pieces generalizing s with
  | nil => exact absurd rfl some_
  | cons piece pieces ih =>
      rcases pieces with _ | ⟨second, pieces⟩
      · rfl
      · have next : second :: pieces ≠ [] := List.cons_ne_nil second pieces
        rw [List.foldl_cons, ih next, replaces, List.getLast_cons next]

theorem foldl_url {pieces : List (List Byte)} (some_ : pieces ≠ []) :
    (pieces.map Callback.url).foldl settings.call info =
      onUrl info (pieces.getLast some_) := by
  have step : (fun info piece => settings.call info (.url piece)) = onUrl := by
    funext info piece
    exact settings.call_eq info (.url piece)
  rw [List.foldl_map, step]
  apply foldl_replaces
  intro info first second
  unfold onUrl
  rw [Option.map_map]
  rfl

theorem foldl_headerField {pieces : List (List Byte)} (some_ : pieces ≠ []) :
    (pieces.map Callback.headerField).foldl settings.call info =
      onHeaderField info (pieces.getLast some_) := by
  have step : (fun info piece => settings.call info (.headerField piece)) = onHeaderField := by
    funext info piece
    exact settings.call_eq info (.headerField piece)
  rw [List.foldl_map, step]
  exact foldl_replaces onHeaderField (fun _ _ _ => rfl) some_ info

/-- A value that no name came before is not put in the request. -/
theorem onHeaderValue_unset (unset : info.fieldSet = false) (piece : List Byte) :
    onHeaderValue info piece = { info with valueSet := true, value := some piece } := by
  unfold onHeaderValue
  simp only
  rw [unset, Bool.false_and, if_neg Bool.false_ne_true]

theorem foldl_headerValue_unset (unset : info.fieldSet = false) (pieces : List (List Byte)) :
    ((pieces.map Callback.headerValue).foldl settings.call info).request = info.request ∧
      ((pieces.map Callback.headerValue).foldl settings.call info).requests = info.requests := by
  induction pieces generalizing info with
  | nil => exact ⟨rfl, rfl⟩
  | cons piece pieces ih =>
      have call : settings.call info (.headerValue piece) =
          { info with valueSet := true, value := some piece } :=
        (settings.call_eq info _).trans (onHeaderValue_unset unset piece)
      rw [List.map_cons, List.foldl_cons, call]
      exact ih unset

/-- The pieces of one header: the last of the name, the first of the value. -/
theorem foldl_header (header : HeaderPieces) :
    (header.callbacks.foldl settings.call info).request =
        info.request.map (fun request =>
          httpRequestSetHeader request header.taken.1 header.taken.2) ∧
      (header.callbacks.foldl settings.call info).requests = info.requests := by
  have value : header.value = header.value.head header.valueSome :: header.value.tail :=
    (List.cons_head_tail header.valueSome).symm
  unfold HeaderPieces.callbacks
  rw [List.foldl_append, foldl_headerField settings header.fieldSome, value, List.map_cons,
    List.foldl_cons, settings.call_eq]
  obtain ⟨request, requests⟩ := @foldl_headerValue_unset
    (onHeaderValue (onHeaderField info (header.field.getLast header.fieldSome))
      (header.value.head header.valueSome)) settings rfl header.value.tail
  exact ⟨request, requests⟩

theorem foldl_headers (headers : List HeaderPieces) :
    ((headers.flatMap HeaderPieces.callbacks).foldl settings.call info).request =
        info.request.map (fun request =>
          setHeaders request (headers.map HeaderPieces.taken)) ∧
      ((headers.flatMap HeaderPieces.callbacks).foldl settings.call info).requests =
        info.requests := by
  induction headers generalizing info with
  | nil => exact ⟨Option.map_id'.symm, rfl⟩
  | cons header headers ih =>
      obtain ⟨request, requests⟩ := @foldl_header info settings header
      obtain ⟨request', requests'⟩ := @ih (header.callbacks.foldl settings.call info)
      rw [List.flatMap_cons, List.foldl_append]
      constructor
      · rw [request', request, Option.map_map]
        rfl
      · rw [requests', requests]

theorem foldl_body (pieces : List (List Byte)) :
    ((pieces.map Callback.body).foldl settings.call info).request =
        info.request.map (fun request =>
          { request with body := pieces.getLast?.or request.body }) ∧
      ((pieces.map Callback.body).foldl settings.call info).requests = info.requests := by
  have step : (fun info piece => settings.call info (.body piece)) = onBody := by
    funext info piece
    exact settings.call_eq info (.body piece)
  rw [List.foldl_map, step]
  by_cases none_ : pieces = []
  · rw [none_]
    exact ⟨Option.map_id'.symm, rfl⟩
  · have last : pieces.foldl onBody info = onBody info (pieces.getLast none_) := by
      apply foldl_replaces
      intro info first second
      unfold onBody
      rw [Option.map_map]
      rfl
    rw [last, List.getLast?_eq_some_getLast none_]
    exact ⟨rfl, rfl⟩

/-- `http_request_set_header` reads and writes the headers alone. -/
theorem httpRequestSetHeader_eq (request : HttpRequest) (header : List Byte × List Byte) :
    httpRequestSetHeader request header.1 header.2 =
      { request with headers := keepHeader request.headers header } := by
  unfold keepHeader httpRequestSetHeader
  simp only
  cases dictFind request.headers (headerKey header.1) <;> rfl

theorem setHeaders_eq (request : HttpRequest) (headers : List (List Byte × List Byte)) :
    setHeaders request headers =
      { request with headers := headers.foldl keepHeader request.headers } := by
  induction headers generalizing request with
  | nil => rfl
  | cons header headers ih =>
      change setHeaders (httpRequestSetHeader request header.1 header.2) headers = _
      rw [ih, httpRequestSetHeader_eq]
      rfl

/-- The request that is complete behind the pieces of one. -/
theorem foldl_pieces (pieces : Pieces) :
    (pieces.callbacks.foldl settings.call info).requests = info.requests ++ [pieces.taken] := by
  unfold Pieces.callbacks
  rw [List.foldl_cons, List.foldl_append, foldl_url settings pieces.urlSome, List.foldl_append,
    List.foldl_append, List.foldl_append, List.foldl_cons, List.foldl_nil, settings.call_eq,
    settings.call_eq info]
  have begin_ : (onUrl (Settings.http.call info .messageBegin)
      (pieces.url.getLast pieces.urlSome)).request =
        some { httpRequestNew with url := pieces.url.getLast? } := by
    rw [List.getLast?_eq_some_getLast pieces.urlSome]
    rfl
  have requests : (onUrl (Settings.http.call info .messageBegin)
      (pieces.url.getLast pieces.urlSome)).requests = info.requests := rfl
  generalize onUrl (Settings.http.call info .messageBegin) (pieces.url.getLast pieces.urlSome) =
    before at begin_ requests
  obtain ⟨headers, headers'⟩ := @foldl_headers before settings pieces.headers
  generalize (pieces.headers.flatMap HeaderPieces.callbacks).foldl settings.call before =
    behindHeaders at headers headers'
  obtain ⟨body, body'⟩ := @foldl_body behindHeaders settings pieces.body
  generalize (pieces.body.map Callback.body).foldl settings.call behindHeaders =
    behindBody at body body'
  obtain ⟨trailers, trailers'⟩ := @foldl_headers behindBody settings pieces.trailers
  generalize (pieces.trailers.flatMap HeaderPieces.callbacks).foldl settings.call behindBody =
    behindTrailers at trailers trailers'
  change behindTrailers.requests ++ (behindTrailers.request.map _).toList = _
  rw [trailers', body', headers', requests, trailers, body, headers, begin_]
  simp only [Option.map_some, Option.toList_some, setHeaders_eq, httpRequestNew, Option.or_none]
  unfold Pieces.taken keptHeaders Pieces.allHeaders
  rw [List.map_append, List.foldl_append]

/-- The requests that are complete behind the pieces of several. -/
theorem foldl_requests (requests : List Pieces) :
    ((requests.flatMap Pieces.callbacks).foldl settings.call info).requests =
      info.requests ++ requests.map Pieces.taken := by
  induction requests generalizing info with
  | nil => exact (List.append_nil _).symm
  | cons pieces requests ih =>
      rw [List.flatMap_cons, List.foldl_append, ih, foldl_pieces, List.map_cons,
        List.append_assoc, List.singleton_append]

end Callbacks

/-! ## The content of the headers -/

section Content

variable {field : List Byte}

theorem cString_of_clean (clean : (0 : Byte) ∉ field) : cString field = field := by
  unfold cString
  rw [List.takeWhile_eq_self_iff]
  intro byte mem
  rw [decide_eq_true_iff]
  exact ne_of_mem_of_not_mem mem clean

/-- A C string as long as its memory has no NUL. -/
theorem clean_of_length (length : field.length ≤ (cString field).length) : (0 : Byte) ∉ field := by
  have whole : cString field = field :=
    (List.takeWhile_prefix _).eq_of_length_le length
  intro mem
  have kept := List.takeWhile_eq_self_iff.mp whole 0 mem
  exact absurd rfl (of_decide_eq_true kept)

theorem cString_length_le (field : List Byte) : (cString field).length ≤ field.length :=
  (List.takeWhile_prefix _).length_le

/-- What is kept of a header: a name and a value as C strings. -/
def cStrings (header : List Byte × List Byte) : List Byte × List Byte :=
  (cString header.1, cString header.2)

theorem keepHeader_eq (kept : Dict (List Byte) Header) (header : List Byte × List Byte) :
    keepHeader kept header = addHeader kept (cStrings header) := by
  have key : (cStrings header).1.map lowerByte = headerKey header.1 := rfl
  unfold keepHeader httpRequestSetHeader addHeader
  simp only [key]
  cases dictFind kept (headerKey header.1) <;> rfl

theorem keptHeaders_eq (headers : List (List Byte × List Byte)) :
    keptHeaders headers = sentHeaders (headers.map cStrings) := by
  unfold keptHeaders sentHeaders
  rw [List.foldl_map]
  congr 1
  funext kept header
  exact keepHeader_eq kept header

/-- How much the values of headers hold, with the separators, each counted as often as
`count` says of its name. -/
def content (count : List Byte → ℕ) (headers : Dict (List Byte) Header) : ℕ :=
  dictSum (fun key header => count key * (header.val.length + 2)) headers

/-- A header adds its own content, whether its name is new or not. -/
theorem content_addHeader (count : List Byte → ℕ) (headers : Dict (List Byte) Header)
    (header : List Byte × List Byte) : content count (addHeader headers header) =
      content count headers + count (header.1.map lowerByte) * (header.2.length + 2) := by
  unfold addHeader content
  simp only
  cases found : dictFind headers (header.1.map lowerByte) with
  | some entry =>
      simp only
      rw [dictSum_replace, dictSum_delete _ found, List.length_append, List.length_append]
      change _ * (entry.val.length + 2 + header.2.length + 2) + _ = _
      ring
  | none =>
      simp only
      rw [dictSum_replace, dictDelete_of_absent found, Nat.add_comm]

theorem content_foldl (count : List Byte → ℕ) (before : Dict (List Byte) Header)
    (headers : List (List Byte × List Byte)) : content count (headers.foldl addHeader before) =
      content count before + (headers.map fun header =>
        count (header.1.map lowerByte) * (header.2.length + 2)).sum := by
  induction headers generalizing before with
  | nil => rfl
  | cons header headers ih =>
      rw [List.foldl_cons, ih, content_addHeader, List.map_cons, List.sum_cons, Nat.add_assoc]

end Content

/-! ## When nothing is lost -/

section Whole

/-- Terms below others with the same sum are the same. -/
theorem eq_of_sum_eq {α : Type} {f g : α → ℕ} {l : List α} (le : ∀ a ∈ l, f a ≤ g a)
    (sum : (l.map f).sum = (l.map g).sum) : ∀ a ∈ l, f a = g a := by
  induction l with
  | nil => exact fun _ absent => absurd absent List.not_mem_nil
  | cons a l ih =>
      have le' : ∀ b ∈ l, f b ≤ g b := fun b mem => le b (List.mem_cons_of_mem a mem)
      have rest : (l.map f).sum ≤ (l.map g).sum := List.sum_le_sum le'
      have first := le a List.mem_cons_self
      rw [List.map_cons, List.map_cons, List.sum_cons, List.sum_cons] at sum
      intro b mem
      rcases List.mem_cons.mp mem with rfl | mem
      · omega
      · exact ih le' (by omega) b mem

theorem flatten_eq_getLast {pieces : List (List Byte)} (some_ : pieces ≠ []) :
    pieces.flatten = pieces.dropLast.flatten ++ pieces.getLast some_ := by
  conv_lhs => rw [← List.dropLast_append_getLast some_]
  rw [List.flatten_append, List.flatten_singleton]

/-- The last piece is all there is when no other has content. -/
theorem getLast_eq_flatten_iff {pieces : List (List Byte)} (some_ : pieces ≠ []) :
    pieces.getLast some_ = pieces.flatten ↔ pieces.dropLast.flatten = [] := by
  rw [flatten_eq_getLast some_]
  exact List.self_eq_append_left

variable {header : HeaderPieces}

theorem HeaderPieces.value_eq (header : HeaderPieces) :
    header.whole.2 = header.taken.2 ++ header.value.tail.flatten := by
  unfold HeaderPieces.whole HeaderPieces.taken
  conv_lhs => rw [← List.cons_head_tail header.valueSome]
  exact List.flatten_cons

theorem HeaderPieces.field_eq (header : HeaderPieces) :
    header.whole.1 = header.field.dropLast.flatten ++ header.taken.1 :=
  flatten_eq_getLast header.fieldSome

theorem HeaderPieces.taken_of_unsplit (unsplit : header.Unsplit) : header.taken = header.whole := by
  apply Prod.ext
  · rw [header.field_eq, unsplit.1, List.nil_append]
  · rw [header.value_eq, unsplit.2, List.append_nil]

/-- There is no NUL in a name. -/
theorem HeaderPieces.taken_clean (header : HeaderPieces) : (0 : Byte) ∉ header.taken.1 :=
  header.tokens _ (List.getLast_mem header.fieldSome)

/-- A header that comes unsplit, with no NUL in its value, is kept as it is. -/
theorem HeaderPieces.kept_of_unsplit (unsplit : header.Unsplit)
    (clean : (0 : Byte) ∉ header.whole.2) : cStrings header.taken = header.whole := by
  have name := header.taken_clean
  have same := taken_of_unsplit unsplit
  unfold cStrings
  rw [cString_of_clean name, same, cString_of_clean clean]

/-- What is kept of a value is no longer than the value, and as long only if nothing of it
is lost. -/
theorem HeaderPieces.value_kept (header : HeaderPieces) :
    (cString header.taken.2).length ≤ header.whole.2.length ∧
      ((cString header.taken.2).length = header.whole.2.length →
        header.value.tail.flatten = [] ∧ (0 : Byte) ∉ header.whole.2) := by
  have le := cString_length_le header.taken.2
  rw [header.value_eq, List.length_append]
  constructor
  · omega
  · intro equal
    have tail : header.value.tail.flatten = [] := by
      apply List.eq_nil_of_length_eq_zero
      omega
    refine ⟨tail, ?_⟩
    rw [tail, List.append_nil]
    exact clean_of_length (by omega)

/-- When the headers that are kept are those that were sent, none was split or had a NUL in
its value: what was lost of one is not made up for by another. -/
theorem intact_of_kept {headers : List HeaderPieces}
    (same : ∀ key, dictFind (keptHeaders (headers.map HeaderPieces.taken)) key =
      dictFind (sentHeaders (headers.map HeaderPieces.whole)) key) :
    ∀ header ∈ headers, header.Unsplit ∧ (0 : Byte) ∉ header.whole.2 := by
  have sums (count : List Byte → ℕ) :
      (headers.map fun header => count ((cString header.taken.1).map lowerByte) *
        ((cString header.taken.2).length + 2)).sum =
      (headers.map fun header => count (header.whole.1.map lowerByte) *
        (header.whole.2.length + 2)).sum := by
    have contents := dictSum_congr
      (fun key header => count key * (header.val.length + 2)) same
    change content count _ = content count _ at contents
    rw [keptHeaders_eq] at contents
    unfold sentHeaders at contents
    rw [content_foldl, content_foldl, List.map_map, List.map_map, List.map_map] at contents
    exact Nat.add_left_cancel contents
  -- the values first, then the names with the values as weights
  have values : ∀ header ∈ headers, (cString header.taken.2).length = header.whole.2.length := by
    have lengths := eq_of_sum_eq (fun header _ => ?_) (sums fun _ => 1)
    · intro header mem
      have length := lengths header mem
      simp only [Nat.one_mul] at length
      omega
    · simp only [Nat.one_mul]
      have le := header.value_kept.1
      omega
  have names (header : HeaderPieces) : header.taken.1.length ≤ header.whole.1.length := by
    rw [header.field_eq, List.length_append]
    exact Nat.le_add_left _ _
  have lengths := eq_of_sum_eq (fun header mem => ?_) (sums List.length)
  · intro header mem
    have length := lengths header mem
    rw [values header mem, List.length_map, List.length_map,
      cString_of_clean header.taken_clean] at length
    have name := Nat.eq_of_mul_eq_mul_right (Nat.succ_pos _) length
    rw [header.field_eq, List.length_append] at name
    rcases header.value_kept.2 (values header mem) with ⟨tail, clean⟩
    refine ⟨⟨List.eq_nil_of_length_eq_zero ?_, tail⟩, clean⟩
    omega
  · rw [values header mem, List.length_map, List.length_map, cString_of_clean header.taken_clean]
    exact Nat.mul_le_mul_right _ (names header)

/-- The request that is taken is the one that was sent exactly when it is not split and no
value has a NUL in it. -/
theorem Pieces.agrees_iff (pieces : Pieces) :
    pieces.taken.Agrees pieces.whole ↔ pieces.Unsplit ∧ pieces.Clean := by
  constructor
  · intro agrees
    have intact := intact_of_kept agrees.headers
    refine ⟨⟨?_, fun header mem => (intact header mem).1, ?_⟩,
      fun header mem => (intact header mem).2⟩
    · have url : pieces.url.getLast? = some pieces.url.flatten := agrees.url
      rw [List.getLast?_eq_some_getLast pieces.urlSome] at url
      exact (getLast_eq_flatten_iff pieces.urlSome).mp (Option.some.inj url)
    · have body : pieces.body.getLast? =
          if pieces.body = [] then none else some pieces.body.flatten := agrees.body
      by_cases none_ : pieces.body = []
      · rw [none_]
        rfl
      · rw [List.getLast?_eq_some_getLast none_, if_neg none_] at body
        exact (getLast_eq_flatten_iff none_).mp (Option.some.inj body)
  · rintro ⟨⟨url, headers, body⟩, clean⟩
    refine ⟨rfl, rfl, rfl, ?_, ?_, ?_⟩
    · change pieces.url.getLast? = some pieces.url.flatten
      rw [List.getLast?_eq_some_getLast pieces.urlSome,
        (getLast_eq_flatten_iff pieces.urlSome).mpr url]
    · change pieces.body.getLast? =
        if pieces.body = [] then none else some pieces.body.flatten
      by_cases none_ : pieces.body = []
      · rw [if_pos none_, none_]
        rfl
      · rw [if_neg none_, List.getLast?_eq_some_getLast none_,
          (getLast_eq_flatten_iff none_).mpr body]
    · intro key
      have same : (pieces.allHeaders.map HeaderPieces.taken).map cStrings =
          pieces.allHeaders.map HeaderPieces.whole := by
        rw [List.map_map]
        exact List.map_congr_left fun header mem =>
          HeaderPieces.kept_of_unsplit (headers header mem) (clean header mem)
      change dictFind (keptHeaders _) key = dictFind (sentHeaders _) key
      rw [keptHeaders_eq, same]

/-- The requests given to `on_request`, or to the handshake, are those that were sent. -/
def Delivered (settings : Settings) (info : CltInfo) (requests : List Pieces) : Prop :=
  ∃ given : List HttpRequest,
    ((requests.flatMap Pieces.callbacks).foldl settings.call info).requests =
      info.requests ++ given ∧
    List.Forall₂ HttpRequest.Agrees given (requests.map Pieces.whole)

end Whole

end ViabtcServer.Http
