import ViabtcServer.Network.RpcRoundTrip
import ViabtcServer.Network.Session

/-!
# Packages from a stream

However the bytes of a stream arrive, `on_can_read` delivers its packages, in
their order and each once. The decoder has to wait for the rest of a package
without touching what is there of it.
-/

namespace ViabtcServer.Network

open Wire

/-! ## Packages -/

/-- A decoder waits for the rest of a package without touching what is there, and
takes a package when it is complete. -/
structure PrefixStable (decodePkg : List Byte → ℤ × List Byte) (package : List Byte) : Prop where
  nonempty : package ≠ []
  waits : ∀ part, part <+: package → part ≠ package → decodePkg part = (0, part)
  takes : ∀ rest, decodePkg (package ++ rest) = (↑package.length, (decodePkg package).2 ++ rest)

/-- What is to be read has room, and no error is reported. -/
def SesEvent.Fine : SesEvent → Prop
  | .read room => 0 < room
  | .error _ | .close => False
  | _ => True

/-- The packages of a stream that are complete in its first `k` bytes. -/
def complete : List (List Byte) → ℕ → List (List Byte)
  | [], _ => []
  | package :: rest, k =>
      if package.length ≤ k then package :: complete rest (k - package.length) else []

/-- How many bytes of a stream are taken after a result, `k` being taken before: as many as it
offers and as there is room for behind the package that is not complete. -/
def ReadResult.taken (size : ℕ) (packages : List (List Byte)) (k : ℕ) : ReadResult → ℕ
  | .bytes n =>
      let room := size - (k - (complete packages k).flatten.length)
      min packages.flatten.length (k + min (n + 1) room)
  | _ => k

/-- How many bytes are taken after some results. -/
def arrived (size : ℕ) (packages : List (List Byte)) (k : ℕ) (results : List ReadResult) : ℕ :=
  results.foldl (fun k result => result.taken size packages k) k

/-- A result that brings bytes, if there are any. -/
def ReadResult.brings : ReadResult → Bool
  | .bytes _ => true
  | _ => false

/-- A package of which a part is missing. -/
def Partial (rest : List (List Byte)) (part : List Byte) : Prop :=
  part = [] ∨ ∃ package rest', rest = package :: rest' ∧ part <+: package ∧ part ≠ package

/-! ## Positions in a stream -/

section Positions

variable {packages done rest : List (List Byte)} {part : List Byte} {size k : ℕ}

/-- The packages done are the complete ones. -/
theorem complete_of_partial (nonempty : ∀ package ∈ rest, package ≠ [])
    (part_ : Partial rest part) :
    complete (done ++ rest) (done.flatten.length + part.length) = done := by
  induction done with
  | nil =>
      cases rest with
      | nil => rfl
      | cons package rest =>
          have less : part.length < package.length := by
            rcases part_ with rfl | ⟨_, _, split, start, strict⟩
            · exact List.length_pos_iff.mpr (nonempty package List.mem_cons_self)
            · rw [(List.cons.inj split).1]
              exact lt_of_le_of_ne start.length_le fun same => strict (start.eq_of_length same)
          change complete (package :: rest) (0 + part.length) = []
          unfold complete
          rw [if_neg (by omega)]
  | cons package done ih =>
      change complete (package :: (done ++ rest)) ((package ++ done.flatten).length + _) = _
      rw [List.length_append]
      unfold complete
      have behind : package.length + done.flatten.length + part.length - package.length =
          done.flatten.length + part.length := by
        omega
      rw [if_pos (by omega), behind, ih]

/-- All packages are complete in the whole stream. -/
theorem complete_flatten (packages : List (List Byte)) :
    complete packages packages.flatten.length = packages := by
  have whole : complete (packages ++ []) (packages.flatten.length + 0) = packages :=
    complete_of_partial (fun _ mem => absurd mem List.not_mem_nil) (Or.inl rfl)
  rwa [List.append_nil] at whole

/-- There is room behind a package that is not complete. -/
theorem complete_room (small : ∀ package ∈ packages, package.length < size)
    (within : k < packages.flatten.length) : k - (complete packages k).flatten.length < size := by
  induction packages generalizing k with
  | nil => cases within
  | cons package rest ih =>
      rw [List.flatten_cons, List.length_append] at within
      unfold complete
      split
      · have later := @ih (k - package.length)
          (fun other mem => small other (List.mem_cons_of_mem _ mem)) (by omega)
        rw [List.flatten_cons, List.length_append]
        omega
      · have first := small package List.mem_cons_self
        rw [List.flatten_nil, List.length_nil]
        omega

theorem ReadResult.taken_whole (size : ℕ) (packages : List (List Byte)) (result : ReadResult) :
    result.taken size packages packages.flatten.length = packages.flatten.length := by
  cases result with
  | bytes n => exact min_eq_left (Nat.le_add_right _ _)
  | interrupted | error | closed => rfl

/-- After the last byte nothing is taken. -/
theorem arrived_whole (size : ℕ) (packages : List (List Byte)) (results : List ReadResult) :
    arrived size packages packages.flatten.length results = packages.flatten.length := by
  induction results with
  | nil => rfl
  | cons result results ih =>
      change arrived size packages (result.taken size packages packages.flatten.length) results = _
      rw [result.taken_whole, ih]

/-- Every result that brings bytes brings at least one, until there are none. -/
theorem le_arrived (small : ∀ package ∈ packages, package.length < size) (results : List ReadResult)
    (within : k ≤ packages.flatten.length) :
    min packages.flatten.length (k + results.countP ReadResult.brings) ≤
      arrived size packages k results := by
  induction results generalizing k with
  | nil => exact min_le_right _ _
  | cons result results ih =>
      change _ ≤ arrived size packages (result.taken size packages k) results
      cases result with
      | bytes n =>
          have count : (ReadResult.bytes n :: results).countP ReadResult.brings =
              results.countP ReadResult.brings + 1 := List.countP_cons_of_pos rfl
          rw [count]
          rcases Nat.lt_or_eq_of_le within with less | rfl
          · have room := complete_room small less
            have taken : min packages.flatten.length (k + 1) ≤
                (ReadResult.bytes n).taken size packages k := by
              simp only [ReadResult.taken]
              omega
            have later := @ih ((ReadResult.bytes n).taken size packages k) (min_le_left _ _)
            omega
          · rw [ReadResult.taken_whole, arrived_whole]
            exact min_le_left _ _
      | interrupted | error | closed =>
          rw [List.countP_cons_of_neg (by exact Bool.false_ne_true)]
          exact ih within

end Positions

/-! ## The loops -/

section Stream

variable {T : SesType} {packages done rest : List (List Byte)} {ses : Session} {buf : NwBuf}
  {k : ℕ}

/-- Some packages are delivered, as the decoder leaves them, and `rest` are not. -/
structure Framed (T : SesType) (packages done rest : List (List Byte)) (ses : Session) : Prop where
  split : packages = done ++ rest
  delivered : ses.deliveries.map Delivery.bytes = done.map fun package => (T.decodePkg package).2
  fine : ∀ event ∈ ses.trace, event.Fine

/-- The bytes in the buffer and those in the socket are the packages to come. -/
structure Flows (T : SesType) (rest : List (List Byte)) (ses : Session) (buf : NwBuf) : Prop where
  ok : buf.Ok T.size
  opened : ses.closed = false
  flows : buf.unread ++ ses.socket = rest.flatten

/-- Packages are taken until one is not complete, or a callback closes the
session. -/
def Taken (T : SesType) (packages : List (List Byte)) : Session × Option NwBuf → Prop
  | (ses, none) => (∃ done rest, Framed T packages done rest ses) ∧ ses.closed = true ∧
      ses.readBuf = none ∧ T.closes ses.trace = true
  | (ses, some buf) => ∃ done rest, Framed T packages done rest ses ∧ Flows T rest ses buf ∧
      Partial rest buf.unread

/-- Anything that is not a delivery. -/
theorem Framed.note {event : SesEvent} (framed : Framed T packages done rest ses)
    (other : ∀ delivery, event ≠ .recvPkg delivery) (fine : event.Fine) :
    Framed T packages done rest (ses.note event) := by
  refine ⟨framed.split, ?_, ?_⟩
  · rw [ses.note_deliveries event other, framed.delivered]
  · intro event' mem
    rcases List.mem_append.mp mem with old | new
    · exact framed.fine event' old
    · rwa [List.mem_singleton.mp new]

/-- A package is delivered. -/
theorem Framed.deliver {package : List Byte} {delivery : Delivery}
    (framed : Framed T packages done (package :: rest) ses)
    (bytes : delivery.bytes = (T.decodePkg package).2) :
    Framed T packages (done ++ [package]) rest (callback T ses (.recvPkg delivery)) := by
  refine ⟨?_, ?_, ?_⟩
  · rw [framed.split, List.append_assoc]
    rfl
  · rw [callback_deliveries, ses.note_delivery, List.map_append, List.map_append, framed.delivered]
    simp only [List.map_cons, List.map_nil, bytes]
  · intro event mem
    rw [callback_trace] at mem
    rcases List.mem_append.mp mem with old | new
    · exact framed.fine event old
    · rw [List.mem_singleton.mp new]
      trivial

theorem readPkgs_empty (ses : Session) (empty : buf.unread = []) (ok : buf.Ok T.size) :
    readPkgs T ses buf = (ses, some buf) := by
  have length := ok.unread_length
  rw [empty, List.length_nil] at length
  unfold readPkgs
  rw [if_neg (by omega)]

/-- The decoder waits. -/
theorem readPkgs_waits {bytes : List Byte} (some_ : buf.rpos < buf.wpos)
    (decode : T.decodePkg buf.unread = (0, bytes))
    (room : (nwBufShift (buf.decoded bytes)).wpos ≠ (nwBufShift (buf.decoded bytes)).data.length) :
    readPkgs T ses buf =
      ({ ses.note (.decode buf.unread) with
          readBuf := some (nwBufShift (buf.decoded bytes)) },
        some (nwBufShift (buf.decoded bytes))) := by
  unfold readPkgs
  simp only [if_pos some_, decode]
  exact if_neg room

/-- The decoder takes a package. -/
theorem readPkgs_takes {bytes : List Byte} {n : ℕ} (some_ : buf.rpos < buf.wpos) (pos : 0 < n)
    (decode : T.decodePkg buf.unread = (↑n, bytes)) :
    readPkgs T ses buf =
      let after := callback T
        { ses.note (.decode buf.unread) with readBuf := some (buf.decoded bytes) }
        (.recvPkg ⟨buf.unread, (buf.decoded bytes).data.drop buf.rpos, n⟩)
      if after.readBuf.isNone then (after, none)
      else readPkgs T after ((buf.decoded bytes).advanced n) := by
  have notNeg : ¬ (n : ℤ) < 0 := by omega
  have posInt : (0 : ℤ) < n := by omega
  conv_lhs => unfold readPkgs
  simp only [if_pos some_, decode, if_neg notNeg, if_pos posInt, Int.toNat_natCast]
  rfl

/-- Taking packages from the buffer reads nothing. -/
theorem readPkgs_socket (T : SesType) (ses : Session) (buf : NwBuf) :
    (readPkgs T ses buf).1.socket = ses.socket := by
  fun_induction readPkgs T ses buf with
  | case1 ses buf => exact callback_socket ..
  | case2 ses buf => exact callback_socket ..
  | case3 ses buf => rename_i ih; exact ih.trans (callback_socket ..)
  | case4 ses buf => exact callback_socket ..
  | case5 => rfl
  | case6 => rfl

/-- The bytes of a package that is taken out of the buffer. -/
theorem NwBuf.Ok.front {size n : ℕ} (ok : buf.Ok size) (fits : n ≤ buf.unread.length) :
    buf.unread.take n = (buf.data.drop buf.rpos).take n := by
  rw [ok.unread_length] at fits
  unfold NwBuf.unread slice
  rw [List.take_take]
  exact congrArg (List.take · _) (min_eq_left fits)

/-- A package that is not complete stays in the buffer, which is shifted for the rest of it. -/
theorem readPkgs_part {package : List Byte} {rest : List (List Byte)}
    (stable : PrefixStable T.decodePkg package) (small : package.length < T.size)
    (framed : Framed T packages done (package :: rest) ses)
    (flows : Flows T (package :: rest) ses buf) (some_ : buf.unread ≠ [])
    (part : buf.unread <+: package) (strict : buf.unread ≠ package) :
    Taken T packages (readPkgs T ses buf) := by
  have noted : Framed T packages done (package :: rest) (ses.note (.decode buf.unread)) :=
    framed.note nofun trivial
  have length := flows.ok.unread_length
  have pos := List.length_pos_iff.mpr some_
  have behind : buf.rpos < buf.wpos := by omega
  obtain ⟨ok, unread⟩ := flows.ok.decode (rfl : buf.unread.length = buf.unread.length)
  obtain ⟨shifted, unread', wpos⟩ := ok.shift
  rw [unread] at unread' wpos
  have room : (nwBufShift (buf.decoded buf.unread)).wpos ≠
      (nwBufShift (buf.decoded buf.unread)).data.length := by
    have less : buf.unread.length < package.length :=
      lt_of_le_of_ne part.length_le fun same => strict (part.eq_of_length same)
    rw [wpos]
    have size : (nwBufShift (buf.decoded buf.unread)).data.length = T.size := shifted.length
    omega
  rw [readPkgs_waits behind (stable.waits _ part strict) room]
  refine ⟨done, package :: rest, ⟨noted.split, noted.delivered, noted.fine⟩,
    ⟨shifted, flows.opened, ?_⟩, ?_⟩
  · rw [unread']
    exact flows.flows
  · rw [unread']
    exact Or.inr ⟨package, rest, rfl, part, strict⟩

theorem readPkgs_taken (stable : ∀ package ∈ packages, PrefixStable T.decodePkg package)
    (small : ∀ package ∈ packages, package.length < T.size)
    (framed : Framed T packages done rest ses) (flows : Flows T rest ses buf) :
    Taken T packages (readPkgs T ses buf) := by
  induction rest generalizing done ses buf with
  | nil =>
      have empty : buf.unread = [] := (List.append_eq_nil_iff.mp flows.flows).1
      rw [readPkgs_empty ses empty flows.ok]
      exact ⟨done, [], framed, flows, Or.inl empty⟩
  | cons package rest ih =>
      by_cases empty : buf.unread = []
      · rw [readPkgs_empty ses empty flows.ok]
        exact ⟨done, package :: rest, framed, flows, Or.inl empty⟩
      have mem : package ∈ packages := by
        rw [framed.split]
        exact List.mem_append_right _ List.mem_cons_self
      have stable' := stable package mem
      have length := flows.ok.unread_length
      have some_ : buf.rpos < buf.wpos := by
        have pos := List.length_pos_iff.mpr empty
        omega
      have stream := flows.flows
      rw [List.flatten_cons] at stream
      by_cases whole : package <+: buf.unread
      · -- the package is complete
        obtain ⟨more, eq⟩ := whole
        have decode := stable'.takes more
        rw [eq] at decode
        have pos := List.length_pos_iff.mpr stable'.nonempty
        have view : (T.decodePkg package).2.length = package.length := T.decode_length package
        have same : ((T.decodePkg package).2 ++ more).length = buf.unread.length := by
          rw [← eq, List.length_append, List.length_append, view]
        obtain ⟨ok, unread⟩ := flows.ok.decode same
        have fits : package.length ≤
            (buf.decoded ((T.decodePkg package).2 ++ more)).unread.length := by
          rw [unread, List.length_append, view]
          exact Nat.le_add_right _ _
        obtain ⟨ok', unread'⟩ := ok.advance fits
        have after : ((T.decodePkg package).2 ++ more).drop package.length = more := by
          rw [← view, List.drop_left]
        rw [unread, after] at unread'
        -- what is delivered is the package as the decoder leaves it
        have bytes : Delivery.bytes ⟨buf.unread,
            (buf.decoded ((T.decodePkg package).2 ++ more)).data.drop buf.rpos, package.length⟩ =
              (T.decodePkg package).2 := by
          refine (ok.front fits).symm.trans ?_
          rw [unread, ← view, List.take_left]
        have noted : Framed T packages done (package :: rest) (ses.note (.decode buf.unread)) :=
          framed.note nofun trivial
        have noted' : Framed T packages done (package :: rest)
            { ses.note (.decode buf.unread) with
              readBuf := some (buf.decoded ((T.decodePkg package).2 ++ more)) } :=
          ⟨noted.split, noted.delivered, noted.fine⟩
        have delivered := noted'.deliver bytes
        rw [readPkgs_takes some_ pos decode]
        rcases callback_cases T { ses.note (.decode buf.unread) with
            readBuf := some (buf.decoded ((T.decodePkg package).2 ++ more)) }
          (.recvPkg ⟨buf.unread,
            (buf.decoded ((T.decodePkg package).2 ++ more)).data.drop buf.rpos,
            package.length⟩) with ⟨closed, freed, closes⟩ | opened
        · simp only [freed, Option.isNone_none, if_true]
          exact ⟨⟨_, _, delivered⟩, closed, freed, closes⟩
        · simp only
          rw [opened] at delivered ⊢
          rw [if_neg (by exact Bool.false_ne_true)]
          apply ih delivered
          refine ⟨ok', flows.opened, ?_⟩
          rw [unread']
          rw [← eq, List.append_assoc] at stream
          exact List.append_cancel_left stream
      · -- the package is not complete
        have part : buf.unread <+: package := by
          rcases List.prefix_or_prefix_of_prefix (List.prefix_append package rest.flatten)
            (stream ▸ List.prefix_append buf.unread ses.socket) with before | after
          · exact absurd before whole
          · exact after
        have strict : buf.unread ≠ package := by
          intro same
          exact whole (same ▸ List.prefix_rfl)
        exact readPkgs_part stable' (small package mem) framed flows empty part strict

/-- Nothing but bytes and `EINTR`. -/
def ReadResult.Plain : ReadResult → Prop
  | .bytes _ | .interrupted => True
  | .error _ | .closed => False

/-- Between two reads, with `k` bytes taken: the buffer starts with the bytes of a package
of which a part is missing. -/
structure Waits (T : SesType) (packages : List (List Byte)) (k : ℕ) (ses : Session)
    (buf : NwBuf) : Prop where
  within : k ≤ packages.flatten.length
  taken : ses.socket = packages.flatten.drop k
  framed : ∃ done rest, Framed T packages done rest ses ∧ Flows T rest ses buf ∧
    Partial rest buf.unread
  front : buf.wpos = buf.unread.length

/-- Between two calls of `on_can_read`: there is a buffer when it is not empty,
or a callback has closed the session. -/
def Rests (T : SesType) (packages : List (List Byte)) (k : ℕ) (ses : Session) : Prop :=
  ((∃ done rest, Framed T packages done rest ses) ∧ ses.closed = true ∧
      T.closes ses.trace = true) ∨
    ∃ buf, Waits T packages k ses buf ∧ ses.readBuf = if buf.unread = [] then none else some buf

/-- There is room for the bytes that are missing. -/
theorem Waits.room (small : ∀ package ∈ packages, package.length < T.size)
    (waits : Waits T packages k ses buf) : 0 < nwBufAvail buf := by
  obtain ⟨done, rest, framed, flows, part⟩ := waits.framed
  have front := waits.front
  have length := flows.ok.length
  have less : buf.unread.length < T.size := by
    rcases part with empty | ⟨package, rest', split, start, _⟩
    · rw [empty]
      exact T.size_pos
    · have mem : package ∈ packages := by
        rw [framed.split, split]
        exact List.mem_append_right _ List.mem_cons_self
      exact lt_of_le_of_lt start.length_le (small package mem)
  unfold nwBufAvail
  omega

theorem Waits.note {event : SesEvent} (waits : Waits T packages k ses buf)
    (other : ∀ delivery, event ≠ .recvPkg delivery) (fine : event.Fine) :
    Waits T packages k (ses.note event) buf := by
  obtain ⟨done, rest, framed, flows, part⟩ := waits.framed
  exact ⟨waits.within, waits.taken,
    ⟨done, rest, framed.note other fine, ⟨flows.ok, flows.opened, flows.flows⟩, part⟩,
    waits.front⟩

theorem Waits.store {readBuf : Option NwBuf} (waits : Waits T packages k ses buf) :
    Waits T packages k { ses with readBuf := readBuf } buf := by
  obtain ⟨done, rest, framed, flows, part⟩ := waits.framed
  exact ⟨waits.within, waits.taken, ⟨done, rest, ⟨framed.split, framed.delivered, framed.fine⟩,
    ⟨flows.ok, flows.opened, flows.flows⟩, part⟩, waits.front⟩

theorem Waits.again (waits : Waits T packages k ses buf) :
    Rests T packages k (readAgain ses buf) := by
  have front := waits.front
  obtain ⟨done, rest, framed, flows, part⟩ := waits.framed
  have length := flows.ok.unread_length
  refine Or.inr ⟨buf, ?_, ?_⟩
  · unfold readAgain
    split <;> exact waits.store
  · unfold readAgain nwBufSize
    by_cases empty : buf.unread = []
    · rw [empty, List.length_nil] at length
      rw [if_pos length.symm, if_pos empty]
    · have pos := List.length_pos_iff.mpr empty
      rw [if_neg (by omega), if_neg empty]

/-- The packages delivered are the complete ones, and the buffer has the bytes behind them. -/
theorem Flows.position (flows : Flows T rest ses buf) (split : packages = done ++ rest)
    (nonempty : ∀ package ∈ packages, package ≠ []) (part : Partial rest buf.unread)
    (within : k ≤ packages.flatten.length) (taken : ses.socket = packages.flatten.drop k) :
    complete packages k = done ∧ k - done.flatten.length = buf.unread.length := by
  have stream := congrArg List.length flows.flows
  have whole : packages.flatten.length = done.flatten.length + rest.flatten.length := by
    rw [split, List.flatten_append, List.length_append]
  rw [List.length_append, taken, List.length_drop] at stream
  have position : k = done.flatten.length + buf.unread.length := by omega
  constructor
  · rw [position, split]
    apply complete_of_partial _ part
    exact fun package mem => nonempty package (split ▸ List.mem_append_right _ mem)
  · omega

/-- A read takes as many bytes as it offers and as there is room for. -/
theorem Waits.taken_bytes (nonempty : ∀ package ∈ packages, package ≠ [])
    (waits : Waits T packages k ses buf) (n : ℕ) :
    (ReadResult.bytes n).taken T.size packages k =
      k + (ses.socket.take (min (n + 1) (nwBufAvail buf))).length := by
  obtain ⟨done, rest, framed, flows, part⟩ := waits.framed
  have front := waits.front
  have length := flows.ok.length
  have within := waits.within
  rcases flows.position framed.split nonempty part within waits.taken with ⟨done_, pending⟩
  simp only [ReadResult.taken]
  rw [done_, pending, List.length_take, waits.taken, List.length_drop]
  unfold nwBufAvail
  omega

/-- When nothing is left in the socket everything is taken. -/
theorem Waits.whole (waits : Waits T packages k ses buf) (empty : ses.socket = []) :
    k = packages.flatten.length := by
  have beyond := List.drop_eq_nil_iff.mp (waits.taken.symm.trans empty)
  exact Nat.le_antisymm waits.within beyond

/-- Some bytes from the socket go to the buffer. -/
theorem Waits.fill {bytes : List Byte} (waits : Waits T packages k ses buf)
    (start : bytes <+: ses.socket) (fits : bytes.length ≤ nwBufAvail buf) :
    ∃ done rest, Framed T packages done rest
        { ses with socket := ses.socket.drop bytes.length } ∧
      Flows T rest { ses with socket := ses.socket.drop bytes.length } (buf.filled bytes) := by
  obtain ⟨done, rest, framed, flows, _⟩ := waits.framed
  have inside := flows.ok.inside
  have length := flows.ok.length
  have room : buf.wpos + bytes.length ≤ T.size := by
    unfold nwBufAvail at fits
    omega
  obtain ⟨ok, unread⟩ := flows.ok.fill room
  refine ⟨done, rest, ⟨framed.split, framed.delivered, framed.fine⟩, ⟨ok, flows.opened, ?_⟩⟩
  rw [unread, List.append_assoc, List.prefix_iff_eq_append.mp start]
  exact flows.flows

/-- After the packages are taken the loop reads again, unless a callback has closed
the session. -/
theorem Taken.next {out : Session × Option NwBuf} {results : List ReadResult} {k' : ℕ}
    (read : ∀ ses buf, Waits T packages k ses buf →
      Rests T packages k' (readStream T results ses buf))
    (within : k ≤ packages.flatten.length) :
    out.1.socket = packages.flatten.drop k → Taken T packages out →
      Rests T packages k' (match out with
        | (ses, none) => ses
        | (ses, some buf) => readStream T results ses (nwBufShift buf)) := by
  intro socket taken
  rcases out with ⟨ses, _ | buf⟩
  · exact Or.inl ⟨taken.1, taken.2.1, taken.2.2.2⟩
  · obtain ⟨done, rest, framed, flows, part⟩ := taken
    obtain ⟨ok, unread, wpos⟩ := flows.ok.shift
    apply read
    refine ⟨within, socket, ⟨done, rest, framed, ⟨ok, flows.opened, ?_⟩, ?_⟩, ?_⟩
    · rw [unread]
      exact flows.flows
    · rwa [unread]
    · rw [wpos, unread]

/-- Every read leaves the session waiting, until `EAGAIN`. -/
theorem readStream_rests (stable : ∀ package ∈ packages, PrefixStable T.decodePkg package)
    (small : ∀ package ∈ packages, package.length < T.size) {results : List ReadResult}
    (plain : ∀ result ∈ results, result.Plain) (waits : Waits T packages k ses buf) :
    Rests T packages (arrived T.size packages k results) (readStream T results ses buf) := by
  have nonempty := fun package mem => (stable package mem).nonempty
  induction results generalizing ses buf k with
  | nil =>
      have noted : Waits T packages k (ses.note (.read (nwBufAvail buf))) buf :=
        waits.note nofun (waits.room small)
      exact noted.again
  | cons result results ih =>
      have rest := fun result mem => plain result (List.mem_cons_of_mem _ mem)
      have room := waits.room small
      have noted : Waits T packages k
          (({ ses with readBuf := some buf } : Session).note (.read (nwBufAvail buf))) buf :=
        waits.store.note nofun room
      cases result with
      | interrupted => exact ih rest noted
      | error msg => exact absurd (plain _ List.mem_cons_self) id
      | closed => exact absurd (plain _ List.mem_cons_self) id
      | bytes n =>
          unfold readStream
          simp only
          rw [if_neg (Nat.pos_iff_ne_zero.mp room)]
          by_cases empty : ses.socket = []
          · have none_ : (({ ses with readBuf := some buf } : Session).note
                (.read (nwBufAvail buf))).socket = [] := empty
            have whole := noted.whole none_
            subst whole
            rw [if_pos none_, arrived_whole]
            exact noted.again
          have more : (({ ses with readBuf := some buf } : Session).note
              (.read (nwBufAvail buf))).socket ≠ [] := empty
          rw [if_neg more]
          have fits : (ses.socket.take (min (n + 1) (nwBufAvail buf))).length ≤ nwBufAvail buf := by
            rw [List.length_take]
            omega
          obtain ⟨done, packages', framed, flows⟩ := noted.fill (List.take_prefix _ _) fits
          have taken := readPkgs_taken stable small framed flows
          have bytes := noted.taken_bytes nonempty n
          refine Taken.next (fun _ _ waits => ih rest waits) (min_le_left _ _) ?_ taken
          change _ = packages.flatten.drop ((ReadResult.bytes n).taken T.size packages k)
          rw [readPkgs_socket, bytes, ← List.drop_drop, ← waits.taken]
          rfl

/-- The calls of `on_can_read` for a stream. -/
def runStream (T : SesType) (ses : Session) (calls : List (List ReadResult)) : Session :=
  calls.foldl (onCanReadStream T) ses

theorem onCanReadStream_rests (stable : ∀ package ∈ packages, PrefixStable T.decodePkg package)
    (small : ∀ package ∈ packages, package.length < T.size) {results : List ReadResult}
    (plain : ∀ result ∈ results, result.Plain) (rests : Rests T packages k ses) :
    Rests T packages (arrived T.size packages k results) (onCanReadStream T ses results) := by
  unfold onCanReadStream
  rcases rests with ⟨framed, closed, closes⟩ | ⟨buf, waits, readBuf⟩
  · rw [if_pos closed]
    exact Or.inl ⟨framed, closed, closes⟩
  · have opened : ¬ ses.closed = true := by
      obtain ⟨_, _, _, flows, _⟩ := waits.framed
      rw [flows.opened]
      exact Bool.false_ne_true
    rw [if_neg opened, readBuf]
    split
    · -- an empty buffer has gone back: the one from the pool is as empty
      rename_i empty
      apply readStream_rests stable small plain
      obtain ⟨done, rest, framed, flows, _⟩ := waits.framed
      have fresh : (nwBufAlloc T ses).unread = [] := rfl
      refine ⟨waits.within, waits.taken,
        ⟨done, rest, framed, ⟨?_, flows.opened, ?_⟩, Or.inl fresh⟩, rfl⟩
      · exact ⟨le_rfl, Nat.zero_le _, T.memory_length _⟩
      · change (nwBufAlloc T ses).unread ++ ses.socket = _
        rw [fresh, ← empty]
        exact flows.flows
    · exact readStream_rests stable small plain waits

theorem runStream_rests (stable : ∀ package ∈ packages, PrefixStable T.decodePkg package)
    (small : ∀ package ∈ packages, package.length < T.size) {calls : List (List ReadResult)}
    (plain : ∀ results ∈ calls, ∀ result ∈ results, result.Plain) (rests : Rests T packages k ses) :
    Rests T packages (arrived T.size packages k calls.flatten) (runStream T ses calls) := by
  induction calls generalizing ses k with
  | nil => exact rests
  | cons results calls ih =>
      rw [List.flatten_cons, arrived, List.foldl_append]
      apply ih (fun results mem => plain results (List.mem_cons_of_mem _ mem))
      exact onCanReadStream_rests stable small (plain results List.mem_cons_self) rests

/-- A session that gets packages from a stream through some calls of `on_can_read`. -/
structure Delivers (T : SesType) (packages : List (List Byte)) (calls : List (List ReadResult))
    (ses : Session) : Prop where
  /-- Nothing is read without room, and no error is reported. -/
  fine : ∀ event ∈ ses.trace, event.Fine
  /-- The bytes the results offered are taken, as far as there was room for them. -/
  taken : ses.closed = false →
    ses.socket = packages.flatten.drop (arrived T.size packages 0 calls.flatten)
  /-- The packages complete in them are delivered, each once and in order. -/
  delivered : ses.closed = false → ses.deliveries.map Delivery.bytes =
    (complete packages (arrived T.size packages 0 calls.flatten)).map fun package =>
      (T.decodePkg package).2
  /-- The first packages are delivered. While the session is open the buffer keeps
  what has arrived of the next one, and there is none when nothing has. -/
  first : ∃ done rest, packages = done ++ rest ∧
    (ses.deliveries.map Delivery.bytes = done.map fun package => (T.decodePkg package).2) ∧
    (ses.closed = false → ∃ part, part ++ ses.socket = rest.flatten ∧ Partial rest part ∧
      ses.readBuf.map NwBuf.unread = if part = [] then none else some part)
  /-- All of them when as many results brought bytes as the stream has. -/
  all : ses.closed = false → packages.flatten.length ≤ calls.flatten.countP ReadResult.brings →
    ses.deliveries.map Delivery.bytes = packages.map fun package => (T.decodePkg package).2
  /-- Only a callback closes the session. -/
  closes : ses.closed = true → T.closes ses.trace = true

theorem Rests.delivers {calls : List (List ReadResult)}
    (stable : ∀ package ∈ packages, PrefixStable T.decodePkg package)
    (small : ∀ package ∈ packages, package.length < T.size)
    (rests : Rests T packages (arrived T.size packages 0 calls.flatten) ses) :
    Delivers T packages calls ses := by
  rcases rests with ⟨⟨done, rest, framed⟩, closed, closes⟩ | ⟨buf, waits, readBuf⟩
  · have notOpen : ses.closed ≠ false := by
      rw [closed]
      decide
    refine ⟨framed.fine, fun opened => absurd opened notOpen, fun opened => absurd opened notOpen,
      ⟨done, rest, framed.split, framed.delivered, fun opened => absurd opened notOpen⟩,
      fun opened => absurd opened notOpen, fun _ => closes⟩
  · obtain ⟨done, rest, framed, flows, part⟩ := waits.framed
    have position := flows.position framed.split (fun package mem => (stable package mem).nonempty)
      part waits.within waits.taken
    have delivered : ses.deliveries.map Delivery.bytes =
        (complete packages (arrived T.size packages 0 calls.flatten)).map fun package =>
          (T.decodePkg package).2 := by
      rw [position.1, framed.delivered]
    refine ⟨framed.fine, fun _ => waits.taken, fun _ => delivered,
      ⟨done, rest, framed.split, framed.delivered, ?_⟩, ?_, ?_⟩
    · intro _
      refine ⟨buf.unread, flows.flows, part, ?_⟩
      rw [readBuf]
      split <;> rfl
    · intro _ enough
      have most := le_arrived small calls.flatten (Nat.zero_le _)
      have within := waits.within
      have whole : arrived T.size packages 0 calls.flatten = packages.flatten.length := by omega
      rw [delivered, whole, complete_flatten]
    · intro closed
      rw [flows.opened] at closed
      cases closed

/-- However the bytes arrive, the packages of a stream are delivered, if each is
smaller than the buffer. -/
theorem stream_framing (stable : ∀ package ∈ packages, PrefixStable T.decodePkg package)
    (small : ∀ package ∈ packages, package.length < T.size) {calls : List (List ReadResult)}
    (plain : ∀ results ∈ calls, ∀ result ∈ results, result.Plain) :
    Delivers T packages calls (runStream T (Session.start packages.flatten) calls) := by
  apply Rests.delivers stable small
  apply runStream_rests stable small plain
  refine Or.inr ⟨⟨T.memory [], 0, 0⟩, ⟨Nat.zero_le _, rfl, ⟨[], packages, ⟨rfl, rfl, nofun⟩,
    ⟨⟨le_rfl, Nat.zero_le _, T.memory_length _⟩, rfl, rfl⟩, Or.inl rfl⟩, rfl⟩, rfl⟩

end Stream

/-! ## RPC packages from a stream -/

theorem rpcDecode_length (host : HostOrder) (data : List Byte) :
    (rpcDecode host data).2.length = data.length := by
  by_cases enough : 36 ≤ data.length
  · rw [rpcDecode_eq enough]
    split
    · rfl
    split
    · rfl
    split
    · exact zeroCrc_length enough
    · exact RpcHead.put_length _ enough
  · rw [rpcDecode_short (not_le.mp enough)]

/-- The decoder of RPC packages can be used on a stream of them. -/
theorem rpcDecode_stable (host : HostOrder) {pkg : RpcPkg}
    (small : pkg.bodySize.toNat ≤ rpcPkgMaxBodySize) :
    PrefixStable (rpcDecode host) pkg.bytes := by
  constructor
  · intro empty
    have length := pkg.bytes_length
    rw [empty] at length
    have size := pkg.le_size
    rw [← length] at size
    exact absurd size (by decide)
  · exact fun part start strict => RpcPkg.rpcDecode_prefix small start strict
  · intro rest
    have whole := RpcPkg.rpcDecode_bytes host small []
    rw [List.append_nil] at whole
    rw [RpcPkg.rpcDecode_bytes host small rest, whole, pkg.bytes_length, List.append_nil]

/-- A session for RPC packages that no callback closes. -/
def rpcSes (host : HostOrder) : SesType where
  decodePkg := rpcDecode host
  closes _ := false
  size := 64
  memory _ := List.replicate 64 0
  decode_length := rpcDecode_length host
  size_pos := by decide
  memory_length _ := List.length_replicate

/-- Two packages that arrive in three parts: each is delivered once, when it is complete. -/
theorem stream_framing_small :
    Delivers (rpcSes .little) [smallPkg.bytes, smallPkg.bytes]
        [[.bytes 39], [.interrupted, .bytes 9], [.bytes 99]]
        (runStream (rpcSes .little) (Session.start [smallPkg.bytes, smallPkg.bytes].flatten)
          [[.bytes 39], [.interrupted, .bytes 9], [.bytes 99]]) ∧
      arrived 64 [smallPkg.bytes, smallPkg.bytes] 0 [.bytes 39, .interrupted, .bytes 9] = 50 ∧
      complete [smallPkg.bytes, smallPkg.bytes] 50 = [smallPkg.bytes] := by
  refine ⟨?_, by decide +kernel, by decide +kernel⟩
  apply stream_framing
  · intro package mem
    rcases List.mem_cons.mp mem with rfl | mem
    · exact rpcDecode_stable .little (by decide)
    · rw [List.mem_singleton.mp mem]
      exact rpcDecode_stable .little (by decide)
  · intro package mem
    have size : smallPkg.bytes.length < 64 := by
      rw [smallPkg.bytes_length]
      decide
    rcases List.mem_cons.mp mem with rfl | mem
    · exact size
    · rw [List.mem_singleton.mp mem]
      exact size
  · intro results mem result mem'
    revert result results
    simp [ReadResult.Plain]

end ViabtcServer.Network
