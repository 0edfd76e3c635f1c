import GoServices.Wire.Protocol

/-! What the decoder makes of a message, part by part.

    A body is a flag, an ID for the types that have one, a route for the types that have one, and
    data. Each part has a lemma that says what its reader returns when the part is all there, and one
    that says what an accepted part looks like. -/

namespace GoServices.Wire

open Bounds Ranges

variable {lib : Library} {d : Dictionary} {body : Buf UInt8} {m : Message} {flag : UInt8}

/-! ### IDs -/

/-- The loop reads what `Varint.read` reads, and stays where it started if there is no end. -/
theorem readID_eq (offset : ℕ) {count i : ℕ} (hlen : i + count = body.items.length) (hi : offset ≤ i)
    (id : BitVec 64) :
    readID body offset count i id =
      pure ((Varint.read (body.items.drop i) (i - offset) id).1,
        offset + (Varint.read (body.items.drop i) (i - offset) id).2.getD 0) := by
  induction count generalizing i id with
  | zero =>
    rw [List.drop_eq_nil_of_le (by omega)]
    rfl
  | succ count ih =>
    have hlt : i < body.items.length := by omega
    rw [readID, Buf.index_eq (List.getElem?_eq_getElem hlt), pure_bind, List.drop_eq_getElem_cons hlt,
      Varint.read]
    dsimp only
    split_ifs
    · rw [Option.getD_some, show offset + (i - offset + 1) = i + 1 by omega]
    · rw [ih (by omega) (by omega), show i + 1 - offset = i - offset + 1 by omega]

/-- How many bytes of `rest` an ID takes, as the decoder counts. -/
def idLength (t : MessageType) (rest : List UInt8) : ℕ :=
  if numbered t then (Varint.read rest 0 (0 : BitVec 64)).2.getD 0 else 0

theorem idPart_eq {rest : List UInt8} (h : body.items = flag :: rest) (t : MessageType) :
    ∃ id, idPart body t = pure (id, 1 + idLength t rest) ∧
      (numbered t → id = (Varint.read rest 0 0).1) := by
  unfold idPart idLength
  split_ifs with ht
  · have hlen : 1 + (body.items.length - 1) = body.items.length := by rw [h, List.length_cons]; omega
    rw [readID_eq 1 hlen le_rfl 0, h]
    exact ⟨_, rfl, fun _ => rfl⟩
  · exact ⟨0, rfl, fun hn => absurd hn ht⟩

theorem idLength_le (t : MessageType) (rest : List UInt8) : idLength t rest ≤ rest.length := by
  unfold idLength
  split_ifs
  · cases hread : Varint.read rest 0 (0 : BitVec 64) with
    | mk v k =>
      cases k with
      | none => exact Nat.zero_le _
      | some k =>
        obtain ⟨taken, rest', rfl, -, rfl⟩ := Varint.read_some hread
        simp
  · exact Nat.zero_le _

/-! ### Routes -/

/-- The two bytes of a code. -/
def codeOf (hi lo : UInt8) : UInt16 := lo.toUInt16 ||| hi.toUInt16 <<< 8

theorem readRoute_code {before rest : List UInt8} {hi lo : UInt8} (hflag : flag &&& routeCompressMask = 1)
    (h : body.items = before ++ hi :: lo :: rest) {offset : ℕ} (hoffset : offset = before.length) :
    readRoute d body flag offset = pure ((getRoute d (codeOf hi lo)).elim
      (.error "route info not found in dictionary") fun route => .ok (true, route, offset + 2)) := by
  have hle : offset + 2 ≤ body.items.length := by
    rw [h, hoffset, List.length_append, List.length_cons, List.length_cons]; omega
  have hitems : (body.items.drop offset).take (offset + 2 - offset) = [hi, lo] := by
    rw [h, hoffset, List.drop_left, Nat.add_sub_cancel_left]; rfl
  have hcode : bigEndianUint16 ⟨[hi, lo], body.items.drop (offset + 2) ++ body.spare⟩ =
      pure (codeOf hi lo) := rfl
  rw [readRoute, if_pos hflag, Buf.slice_eq (Nat.le_add_right _ _) hle, pure_bind, hitems, hcode, pure_bind]
  cases getRoute d (codeOf hi lo) <;> rfl

theorem readRoute_plain {before route rest : List UInt8} {rl : UInt8}
    (hflag : ¬ flag &&& routeCompressMask = 1) (h : body.items = before ++ rl :: (route ++ rest))
    {offset : ℕ} (hoffset : offset = before.length) (hrl : rl.toNat = route.length) :
    readRoute d body flag offset = pure (.ok (false, route, offset + 1 + route.length)) := by
  have hle : offset + 1 + rl.toNat ≤ body.items.length := by
    rw [h, hoffset, hrl]; simp only [List.length_append, List.length_cons]; omega
  have hindex : body.items[offset]? = some rl := by rw [h, hoffset]; simp
  have hitems : (body.items.drop (offset + 1)).take (offset + 1 + rl.toNat - (offset + 1)) = route := by
    rw [h, hoffset, List.drop_append, List.drop_eq_nil_of_le (by omega)]
    simp [hrl]
  rw [readRoute, if_neg hflag, Buf.index_eq hindex, pure_bind, Buf.slice_eq (by omega) hle, pure_bind,
    hitems, hrl]

/-- An accepted route lies inside the body, if it ends there. -/
theorem readRoute_ok {offset stop : ℕ} {c : Bool} {r : Route}
    (h : (readRoute d body flag offset).result = some (.ok (c, r, stop))) (hend : stop ≤ body.items.length) :
    ∃ route, body.items.drop offset = route ++ body.items.drop stop ∧
      (flag &&& routeCompressMask = 1 →
        ∃ hi lo, route = [hi, lo] ∧ getRoute d (codeOf hi lo) = some r) ∧
      (¬ flag &&& routeCompressMask = 1 → ∃ rl, route = rl :: r ∧ rl.toNat = r.length) := by
  unfold readRoute at h
  split_ifs at h with hflag
  · obtain ⟨b, hb, h⟩ := Access.result_bind.mp h
    obtain ⟨code, hcode, h⟩ := Access.result_bind.mp h
    obtain ⟨lo, hlo, hcode⟩ := Access.result_bind.mp hcode
    obtain ⟨hi, hhi, hcode⟩ := Access.result_bind.mp hcode
    rw [Buf.result_index] at hlo hhi
    cases hroute : getRoute d code with
    | none => rw [hroute] at h; simp at h
    | some route =>
      rw [hroute] at h
      simp only [Access.result_pure, Option.some.injEq, Except.ok.injEq, Prod.mk.injEq] at h
      obtain ⟨-, rfl, rfl⟩ := h
      have hitems := Buf.result_slice hb (by omega) hend
      rw [Nat.add_sub_cancel_left] at hitems
      have htwo : b.items = [hi, lo] := by
        have hlen : b.items.length = 2 := by
          rw [hitems, List.length_take, List.length_drop]; omega
        obtain ⟨x, y, hxy⟩ := List.length_eq_two.mp hlen
        rw [hxy] at hlo hhi ⊢
        simp only [List.getElem?_cons_succ, List.getElem?_cons_zero, Option.some.injEq] at hlo hhi
        rw [hlo, hhi]
      refine ⟨[hi, lo], ?_, fun _ => ⟨hi, lo, rfl, ?_⟩, fun hn => absurd hflag hn⟩
      · rw [← htwo, hitems, ← List.drop_drop, List.take_append_drop]
      · rw [codeOf, Option.some.inj hcode]; exact hroute
  · obtain ⟨rl, hrl, h⟩ := Access.result_bind.mp h
    obtain ⟨b, hb, h⟩ := Access.result_bind.mp h
    rw [Buf.result_index] at hrl
    simp only [Access.result_pure, Option.some.injEq, Except.ok.injEq, Prod.mk.injEq] at h
    obtain ⟨-, rfl, rfl⟩ := h
    have hitems := Buf.result_slice hb (by omega) hend
    rw [Nat.add_sub_cancel_left] at hitems
    obtain ⟨hlt, heq⟩ := List.getElem?_eq_some_iff.mp hrl
    refine ⟨rl :: b.items, ?_, fun hn => absurd hn hflag, fun _ => ⟨rl, rfl, ?_⟩⟩
    · rw [List.drop_eq_getElem_cons hlt, heq, hitems, List.cons_append,
        ← List.drop_drop (i := rl.toNat), List.take_append_drop]
    · rw [hitems, List.length_take, List.length_drop]; omega

/-- Whether the route that a flag announces is all there. -/
def RouteFits (flag : UInt8) (l : List UInt8) : Prop :=
  if flag &&& routeCompressMask = 1 then 2 ≤ l.length
  else ∃ rl more, l = rl :: more ∧ rl.toNat ≤ more.length

theorem readRoute_inside {offset : ℕ} (h : RouteFits flag (body.items.drop offset))
    (hoffset : offset ≤ body.items.length) :
    ∃ r, readRoute d body flag offset = pure r ∧ ∀ c route stop, r = .ok (c, route, stop) →
      stop ≤ body.items.length := by
  have hbefore : offset = (body.items.take offset).length := by rw [List.length_take]; omega
  have hsplit := (List.take_append_drop offset body.items).symm
  unfold RouteFits at h
  split_ifs at h with hflag
  · obtain ⟨hi, lo, rest, hrest⟩ : ∃ hi lo rest, body.items.drop offset = hi :: lo :: rest := by
      match body.items.drop offset, h with
      | hi :: lo :: rest, _ => exact ⟨hi, lo, rest, rfl⟩
    rw [hrest] at hsplit
    rw [readRoute_code hflag hsplit hbefore]
    have hlen := congrArg List.length hrest
    rw [List.length_drop, List.length_cons, List.length_cons] at hlen
    refine ⟨_, rfl, fun c route stop heq => ?_⟩
    cases hroute : getRoute d (codeOf hi lo) with
    | none => rw [hroute] at heq; cases heq
    | some found =>
      simp only [hroute, Option.elim_some, Except.ok.injEq, Prod.mk.injEq] at heq
      omega
  · obtain ⟨rl, more, hrest, hle⟩ := h
    have hmore : more = more.take rl.toNat ++ more.drop rl.toNat := (List.take_append_drop _ _).symm
    rw [hrest, hmore] at hsplit
    have hlen : rl.toNat = (more.take rl.toNat).length := by rw [List.length_take]; omega
    rw [readRoute_plain hflag hsplit hbefore hlen]
    have htotal := congrArg List.length hrest
    rw [List.length_drop, List.length_cons] at htotal
    refine ⟨_, rfl, fun c route stop heq => ?_⟩
    simp only [Except.ok.injEq, Prod.mk.injEq] at heq
    omega

/-- A route is read inside the body only if it is all there. -/
theorem readRoute_fits {offset : ℕ} (h : (readRoute d body flag offset).inside = true) :
    RouteFits flag (body.items.drop offset) := by
  unfold readRoute at h
  unfold RouteFits
  split_ifs at h ⊢ with hflag
  · have hslice := Buf.inside_slice.mp (Access.inside_bind.mp h).1
    rw [List.length_drop]
    omega
  · obtain ⟨hindex, h⟩ := Access.inside_bind.mp h
    have hlt := Buf.inside_index.mp hindex
    have hrl := List.getElem?_eq_getElem hlt
    have hslice := Buf.inside_slice.mp (Access.inside_bind.mp (h _ (Buf.result_index.mpr hrl))).1
    refine ⟨body.items[offset], body.items.drop (offset + 1), List.drop_eq_getElem_cons hlt, ?_⟩
    rw [List.length_drop]
    omega

/-! ### Data -/

theorem readData_eq {offset : ℕ} (h : offset ≤ body.items.length) :
    readData lib body flag offset = pure (if flag &&& gzipMask = gzipMask then
      lib.inflate (body.items.drop offset) else .ok (body.items.drop offset)) := by
  have hitems : (body.items.drop offset).take (body.items.length - offset) = body.items.drop offset := by
    rw [← List.length_drop, List.take_length]
  rw [readData, if_neg (by omega), Buf.slice_eq h le_rfl, pure_bind, hitems]
  split_ifs <;> rfl

theorem readData_ok {offset : ℕ} {data : List UInt8}
    (h : (readData lib body flag offset).result = some (.ok data)) : offset ≤ body.items.length := by
  by_contra hgt
  rw [readData, if_pos (by omega)] at h
  simp at h

/-! ### Messages -/

/-- The decoder, once the flag is known. -/
theorem messageDecode_eq {rest : List UInt8} (h : body.items = flag :: rest) :
    messageDecode lib d body =
      if typeOf flag > MessageType.push then pure (.error "invalid message type")
      else idPart body (typeOf flag) >>= fun idEnd =>
        if idEnd.2 > body.items.length then pure (.error "invalid message")
        else routePart d body flag idEnd.2 >>= dataPart lib body flag idEnd.1 := by
  have hlow : ¬ typeOf flag < MessageType.request := UInt8.not_lt.mpr (UInt8.zero_le)
  rw [messageDecode, Buf.index_eq (by rw [h]; rfl), pure_bind]
  simp only [hlow, false_or]

/-- A message of a known type: what follows the ID is a route and data. -/
theorem messageDecode_known {rest : List UInt8} (h : body.items = flag :: rest)
    (ht : ¬ typeOf flag > MessageType.push) :
    ∃ id, messageDecode lib d body =
        (routePart d body flag (1 + idLength (typeOf flag) rest) >>= dataPart lib body flag id) ∧
      (numbered (typeOf flag) → id = (Varint.read rest 0 0).1) := by
  obtain ⟨id, hid, hval⟩ := idPart_eq h (typeOf flag)
  have hle := idLength_le (typeOf flag) rest
  have hlen : ¬ 1 + idLength (typeOf flag) rest > body.items.length := by
    rw [h, List.length_cons]; omega
  refine ⟨id, ?_, hval⟩
  rw [messageDecode_eq h, if_neg ht, hid, pure_bind, if_neg hlen]

/-- What follows the ID of a message. -/
theorem drop_id {rest : List UInt8} (h : body.items = flag :: rest) (n : ℕ) :
    body.items.drop (1 + n) = rest.drop n := by
  rw [h, Nat.add_comm, List.drop_succ_cons]

/-! ### Packets -/

section Packets

variable {o : Order Route} {payload : Buf UInt8}

/-- The length that the header states. -/
def headerLength (payload : Buf UInt8) : UInt32 :=
  UInt32.ofNat (bytesToInt ((payload.items.drop 1).take (headerLen - 1)))

theorem decode_short (h : payload.items.length < headerLen) :
    decode lib o d payload = pure (.error "data len invalid", d) := by
  rw [decode, if_pos h]

theorem slice_rest (h : headerLen ≤ payload.items.length) :
    payload.slice headerLen payload.items.length =
      pure ⟨payload.items.drop headerLen, payload.spare⟩ := by
  rw [Buf.slice_eq h le_rfl, ← List.length_drop, List.take_length, List.drop_length, List.nil_append]

theorem decode_data (hlen : headerLen ≤ payload.items.length)
    (htype : payload.items[0]? = some PackageType.data) :
    decode lib o d payload =
      messageDecode lib d ⟨payload.items.drop headerLen, payload.spare⟩ >>= fun m =>
        pure (m.map fun m => ⟨.data, headerLength payload, .message m⟩, d) := by
  rw [decode, if_neg (Nat.not_lt.mpr hlen), Buf.index_eq htype, pure_bind,
    Buf.slice_eq (by decide) hlen, pure_bind]
  dsimp only
  rw [if_neg (by decide), if_pos rfl, slice_rest hlen, pure_bind]
  rfl

theorem decode_handshake_error {e : String} (hlen : headerLen ≤ payload.items.length)
    (htype : payload.items[0]? = some PackageType.handshake)
    (h : lib.unmarshal (payload.items.drop headerLen) = .error e) :
    decode lib o d payload = pure (.error e, d) := by
  rw [decode, if_neg (Nat.not_lt.mpr hlen), Buf.index_eq htype, pure_bind,
    Buf.slice_eq (by decide) hlen, pure_bind]
  dsimp only
  rw [if_pos rfl, slice_rest hlen, pure_bind, h]

theorem decode_handshake_ok {b : HandshakeBody} (hlen : headerLen ≤ payload.items.length)
    (htype : payload.items[0]? = some PackageType.handshake)
    (h : lib.unmarshal (payload.items.drop headerLen) = .ok b) :
    decode lib o d payload =
      pure (.ok ⟨.handshake, headerLength payload, .handshake b⟩, setDictionary o b.sys.dict d) := by
  rw [decode, if_neg (Nat.not_lt.mpr hlen), Buf.index_eq htype, pure_bind,
    Buf.slice_eq (by decide) hlen, pure_bind]
  dsimp only
  rw [if_pos rfl, slice_rest hlen, pure_bind, h]
  rfl

theorem decode_other {type : PackageType} (hlen : headerLen ≤ payload.items.length)
    (htype : payload.items[0]? = some type) (hhandshake : type ≠ .handshake) (hdata : type ≠ .data) :
    decode lib o d payload = pure (.ok ⟨type, headerLength payload, .nil⟩, d) := by
  rw [decode, if_neg (Nat.not_lt.mpr hlen), Buf.index_eq htype, pure_bind,
    Buf.slice_eq (by decide) hlen, pure_bind]
  dsimp only
  rw [if_neg hhandshake, if_neg hdata]
  rfl

/-- Packets that are too short are refused; a `Data` packet is read by `messageDecode`; any other one is
    refused or accepted with the type and the length of its header. -/
theorem decode_cases (lib : Library) (o : Order Route) (d : Dictionary) (payload : Buf UInt8) :
    payload.items.length < headerLen ∧
      decode lib o d payload = pure (.error "data len invalid", d) ∨
    headerLen ≤ payload.items.length ∧ payload.items[0]? = some PackageType.data ∧
      decode lib o d payload =
        (messageDecode lib d ⟨payload.items.drop headerLen, payload.spare⟩ >>= fun m =>
          pure (m.map fun m => ⟨.data, headerLength payload, .message m⟩, d)) ∨
    headerLen ≤ payload.items.length ∧ ∃ type, payload.items[0]? = some type ∧
      type ≠ PackageType.data ∧ ((∃ e, decode lib o d payload = pure (.error e, d)) ∨
        ∃ body d', decode lib o d payload = pure (.ok ⟨type, headerLength payload, body⟩, d')) := by
  by_cases hshort : payload.items.length < headerLen
  · exact .inl ⟨hshort, decode_short hshort⟩
  have hlen : headerLen ≤ payload.items.length := Nat.le_of_not_lt hshort
  obtain ⟨type, htype⟩ : ∃ type, payload.items[0]? = some type :=
    ⟨_, List.getElem?_eq_getElem (Nat.lt_of_lt_of_le (by decide) hlen)⟩
  by_cases hdata : type = PackageType.data
  · rw [hdata] at htype
    exact .inr (.inl ⟨hlen, htype, decode_data hlen htype⟩)
  refine .inr (.inr ⟨hlen, type, htype, hdata, ?_⟩)
  by_cases hhandshake : type = PackageType.handshake
  · rw [hhandshake] at htype ⊢
    cases hb : lib.unmarshal (payload.items.drop headerLen) with
    | error e => exact .inl ⟨e, decode_handshake_error hlen htype hb⟩
    | ok b => exact .inr ⟨_, _, decode_handshake_ok hlen htype hb⟩
  · exact .inr ⟨_, _, decode_other hlen htype hhandshake hdata⟩

/-- An accepted packet has the type and the length of its header. -/
theorem decode_header {p : Packet} {d' : Dictionary}
    (h : (decode lib o d payload).result = some (.ok p, d')) :
    payload.items[0]? = some p.type ∧ p.len = headerLength payload := by
  obtain ⟨-, hdecode⟩ | ⟨-, htype, hdecode⟩ | ⟨-, type, htype, -, ⟨e, hdecode⟩ | ⟨body, d₁, hdecode⟩⟩ :=
    decode_cases lib o d payload <;> rw [hdecode] at h
  · simp at h
  · obtain ⟨m, -, h⟩ := Access.result_bind.mp h
    cases m with
    | error e => simp [Except.map] at h
    | ok m =>
      simp only [Access.result_pure, Except.map, Option.some.injEq, Prod.mk.injEq, Except.ok.injEq] at h
      exact h.1 ▸ ⟨htype, rfl⟩
  · simp at h
  · simp only [Access.result_pure, Option.some.injEq, Prod.mk.injEq, Except.ok.injEq] at h
    exact h.1 ▸ ⟨htype, rfl⟩

/-- Three bytes hold a length up to a multiple of `2 ^ 24`. -/
theorem bytesToInt_intToBytes (n : ℕ) : bytesToInt (intToBytes n) = n % maxPacketSize := by
  have hmask : ∀ k : ℕ, (UInt8.ofNat (k &&& 0xFF)).toNat = k % 256 := by
    intro k
    rw [UInt8.toNat_ofNat', show (0xFF : ℕ) = 2 ^ 8 - 1 from rfl, Nat.and_two_pow_sub_one_eq_mod]
    omega
  simp only [bytesToInt, intToBytes, List.foldl_cons, List.foldl_nil, hmask, Nat.shiftLeft_eq,
    Nat.shiftRight_eq_div_pow, maxPacketSize]
  omega

/-- A packet is its type, the three bytes of the length, and the body. -/
theorem encode_eq_ok {t : PackageType} {body packet : List UInt8} :
    encode t body = .ok packet ↔ t ≠ .none ∧ body.length ≤ maxPacketSize ∧
      packet = t :: intToBytes body.length ++ body := by
  rw [encode]
  split_ifs with ht hlen
  · simp [ht]
  · simp [Nat.not_le.mpr hlen]
  · simp [ht, Nat.le_of_not_lt hlen, eq_comm]

/-- The header of an encoded packet states the length of the body up to a multiple of `2 ^ 24`. -/
theorem header_of_encode {t : PackageType} {body packet : List UInt8} (h : encode t body = .ok packet) :
    packet[0]? = some t ∧
      bytesToInt ((packet.drop 1).take (headerLen - 1)) = body.length % maxPacketSize := by
  obtain ⟨-, -, rfl⟩ := encode_eq_ok.mp h
  exact ⟨rfl, bytesToInt_intToBytes body.length⟩

end Packets

end GoServices.Wire
