import GoServices.Wire.Codec
import Mathlib.Data.List.Lex

/-! Messages on the wire: what was encoded is decoded again, what hostile packets do, and which length
    the header of a packet states.

    The decoder looks at the end of the payload only after it has read: a body without a flag or with
    a route that is cut short is read beyond its end, and an ID that never ends is taken to be empty.
    The first happens exactly when the parts are not all there (`Framed`), the second exactly when the
    message would be well formed without its ID (`Misread`). -/

namespace GoServices.Wire

open Bounds Ranges

variable {lib : Library} {d : Dictionary} {body : Buf UInt8} {m : Message} {flag : UInt8}

/-! ### Flags and codes -/

theorem type_cases {t : MessageType} (h : ¬ t > MessageType.push) : t = .request ∨ t = .notify ∨
    t = .response ∨ t = .push := by
  have hlt : t.toNat < 4 := by
    rw [gt_iff_lt, UInt8.lt_iff_toNat_lt, show MessageType.push.toNat = 3 from rfl] at h
    omega
  have heq : ∀ k : UInt8, t.toNat = k.toNat → t = k := fun k hk => UInt8.toNat_inj.mp hk
  obtain h0 | h1 | h2 | h3 : t.toNat = 0 ∨ t.toNat = 1 ∨ t.toNat = 2 ∨ t.toNat = 3 := by omega
  · exact Or.inl (heq 0 h0)
  · exact Or.inr (Or.inl (heq 1 h1))
  · exact Or.inr (Or.inr (Or.inl (heq 2 h2)))
  · exact Or.inr (Or.inr (Or.inr (heq 3 h3)))

/-- The flag that `messageEncode` writes. -/
def flagFor (t : MessageType) (compressed : Bool) : UInt8 :=
  if compressed then t <<< 1 ||| routeCompressMask else t <<< 1

theorem flagFor_spec {t : MessageType} (h : ¬ t > MessageType.push) (c : Bool) :
    typeOf (flagFor t c) = t ∧ (flagFor t c &&& routeCompressMask = 1 ↔ c = true) ∧
      ¬ flagFor t c &&& gzipMask = gzipMask := by
  rcases type_cases h with rfl | rfl | rfl | rfl <;> cases c <;> decide

theorem byte_toNat (x : UInt16) : ((x &&& 0xFF).toUInt8).toUInt16.toNat = x.toNat % 256 := by
  rw [UInt8.toNat_toUInt16, UInt16.toNat_toUInt8, UInt16.toNat_and,
    show (0xFF : UInt16).toNat = 2 ^ 8 - 1 from rfl, Nat.and_two_pow_sub_one_eq_mod]
  omega

theorem codeOf_bytes (code : UInt16) :
    codeOf ((code >>> 8) &&& 0xFF).toUInt8 (code &&& 0xFF).toUInt8 = code := by
  apply UInt16.toNat_inj.mp
  have hlt := code.toNat_lt
  rw [codeOf, UInt16.toNat_or, UInt16.toNat_shiftLeft, byte_toNat, byte_toNat, UInt16.toNat_shiftRight,
    show (8 : UInt16).toNat % 16 = 8 from rfl, Nat.shiftRight_eq_div_pow, Nat.shiftLeft_eq, Nat.or_comm,
    show code.toNat / 2 ^ 8 % 256 * 2 ^ 8 % 2 ^ 16 = 2 ^ 8 * (code.toNat / 2 ^ 8) by omega,
    ← Nat.two_pow_add_eq_or_of_lt (by omega)]
  omega

/-! ### Decoding what was encoded -/

/-- The bytes of the ID. -/
def idBytes (m : Message) : List UInt8 := if numbered m.type then Varint.write m.id else []

/-- The bytes of the route. -/
def routeBytes (d : Dictionary) (m : Message) : List UInt8 :=
  if routable m.type then
    (d.routes.get m.route).elim (UInt8.ofNat m.route.length :: m.route) fun code =>
      [((code >>> 8) &&& 0xFF).toUInt8, (code &&& 0xFF).toUInt8]
  else []

theorem messageEncode_eq (h : ¬ m.type > MessageType.push) :
    messageEncode d m = .ok (flagFor m.type (d.routes.get m.route).isSome ::
      (idBytes m ++ (routeBytes d m ++ m.data))) := by
  have hlow : ¬ m.type < MessageType.request := UInt8.not_lt.mpr (UInt8.zero_le)
  rw [messageEncode, if_neg (not_or.mpr ⟨hlow, h⟩), ← List.append_assoc]
  cases hcode : d.routes.get m.route <;> simp only [idBytes, routeBytes, hcode] <;> rfl

theorem idPart_idBytes {rest : List UInt8} (h : body.items = flag :: (idBytes m ++ rest)) :
    ∃ id, idPart body m.type = pure (id, 1 + (idBytes m).length) ∧ (numbered m.type → id = m.id) := by
  obtain ⟨id, hid, hval⟩ := idPart_eq h m.type
  have hread : numbered m.type → Varint.read (idBytes m ++ rest) 0 0 =
      (m.id, some (idBytes m).length) := fun ht => by
    rw [idBytes, if_pos ht, Varint.read_write]
    simp
  refine ⟨id, ?_, fun ht => ?_⟩
  · rw [hid, idLength]
    split_ifs with ht
    · rw [hread ht, Option.getD_some]
    · rw [idBytes, if_neg ht, List.length_nil]
  · rw [hval ht, hread ht]

theorem routePart_routeBytes {before rest : List UInt8} (htype : typeOf flag = m.type)
    (hflag : flag &&& routeCompressMask = 1 ↔ (d.routes.get m.route).isSome = true)
    (hroute : (d.routes.get m.route).isSome = true ∨ m.route.length ≤ 255)
    (h : body.items = before ++ (routeBytes d m ++ rest)) {offset : ℕ} (hoffset : offset = before.length) :
    ∃ c r, routePart d body flag offset = pure (.ok (c, r, offset + (routeBytes d m).length)) ∧
      (routable m.type → r = m.route) := by
  unfold routePart
  rw [htype]
  by_cases ht : routable m.type = true
  · rw [if_pos ht]
    rw [routeBytes, if_pos ht] at h ⊢
    cases hget : d.routes.get m.route with
    | some code =>
      rw [hget] at h hflag
      have hcode := (d.inverse m.route code).mp hget
      rw [readRoute_code (hflag.mpr rfl) h hoffset, codeOf_bytes, getRoute, hcode]
      exact ⟨true, m.route, rfl, fun _ => rfl⟩
    | none =>
      rw [hget] at h hflag hroute
      have hlen : (UInt8.ofNat m.route.length).toNat = m.route.length := by
        rw [UInt8.toNat_ofNat']
        exact Nat.mod_eq_of_lt (by have := hroute.resolve_left (by simp); omega)
      rw [readRoute_plain (fun hf => absurd (hflag.mp hf) (by simp)) h hoffset hlen, Nat.add_assoc,
        Nat.add_comm 1]
      exact ⟨false, m.route, rfl, fun _ => rfl⟩
  · rw [if_neg ht, routeBytes, if_neg ht]
    exact ⟨false, [], rfl, fun h => absurd h ht⟩

/-- Whatever dictionaries clients have sent, a message comes back as it was: its type and data always,
    its ID and route when its type has them on the wire. -/
theorem message_round_trip (lib : Library) (calls : List (Order Route × Option (Map Route UInt16)))
    (spare : List UInt8) (m : Message) (htype : m.type ≤ MessageType.push) :
    let d := calls.foldl (fun d call => setDictionary call.1 call.2 d) Dictionary.empty
    ((d.routes.get m.route).isSome = true ∨ m.route.length ≤ 255) →
    ∃ bytes m', messageEncode d m = .ok bytes ∧
      messageDecode lib d ⟨bytes, spare⟩ = pure (.ok m') ∧ m'.type = m.type ∧ m'.data = m.data ∧
      (m.type = .request ∨ m.type = .response → m'.id = m.id) ∧
      (m.type = .request ∨ m.type = .notify ∨ m.type = .push → m'.route = m.route) := by
  intro d hroute
  have hle : ¬ m.type > MessageType.push := UInt8.not_lt.mpr htype
  obtain ⟨htypeOf, hflag, hgzip⟩ := flagFor_spec hle (d.routes.get m.route).isSome
  obtain ⟨flag, hflag'⟩ : ∃ flag, flag = flagFor m.type (d.routes.get m.route).isSome := ⟨_, rfl⟩
  rw [← hflag'] at htypeOf hflag hgzip
  obtain ⟨body, hbody⟩ : ∃ body : Buf UInt8,
      body = ⟨flag :: (idBytes m ++ (routeBytes d m ++ m.data)), spare⟩ := ⟨_, rfl⟩
  have hitems : body.items = flag :: (idBytes m ++ (routeBytes d m ++ m.data)) := by rw [hbody]
  obtain ⟨id, hid, hidval⟩ := idPart_idBytes hitems
  have hafter : body.items = (flag :: idBytes m) ++ (routeBytes d m ++ m.data) := hitems
  obtain ⟨c, r, hr, hrval⟩ := routePart_routeBytes htypeOf hflag hroute hafter
    (by rw [List.length_cons, Nat.add_comm] : 1 + (idBytes m).length = _)
  have hdrop : body.items.drop (1 + (idBytes m).length + (routeBytes d m).length) = m.data := by
    rw [hafter, ← List.append_assoc]
    exact List.drop_left' (by simp only [List.length_append, List.length_cons]; omega)
  have hlen : 1 + (idBytes m).length + (routeBytes d m).length ≤ body.items.length := by
    rw [hitems]; simp only [List.length_append, List.length_cons]; omega
  refine ⟨_, ⟨m.type, id, r, m.data, c, decide (flag &&& errorMask = errorMask)⟩,
    hflag' ▸ messageEncode_eq hle, ?_, rfl, rfl, fun ht => hidval ?_, fun ht => hrval ?_⟩
  · rw [← hbody, messageDecode_eq hitems, htypeOf, if_neg hle, hid, pure_bind]
    dsimp only
    rw [if_neg (by omega), hr, pure_bind, dataPart, readData_eq hlen, if_neg hgzip, pure_bind, hdrop,
      htypeOf]
    rfl
  · rcases ht with ht | ht <;> rw [ht] <;> rfl
  · rcases ht with ht | ht | ht <;> rw [ht] <;> rfl

/-- Routes compared byte by byte. -/
@[reducible] def routeOrder : LinearOrder Route :=
  LinearOrder.lift' (List.map UInt8.toNat) (List.map_injective_iff.mpr fun _ _ => UInt8.toNat_inj.mp)

/-- An order in which the routes of `l` come first. -/
def visiting (l : List Route) : Order Route := @Order.first Route _ routeOrder l

/-- A client names the route `ab`, and gets an answer on it. -/
def dictAb : List (Order Route × Option (Map Route UInt16)) :=
  [(visiting [], none), (visiting [], some (Map.empty.set [0x20, 0x61, 0x62, 0x0A] 0x0102))]

/-- Neither JSON nor compressed data is ever there to be read. -/
def noLibrary : Library := ⟨fun _ => .error "json", fun _ => .error "zlib"⟩

theorem message_round_trip_ab : ∃ bytes m',
    messageEncode (dictAb.foldl (fun d call => setDictionary call.1 call.2 d) Dictionary.empty)
      ⟨.request, 300, [0x61, 0x62], [9], false, false⟩ = .ok bytes ∧
    messageDecode noLibrary (dictAb.foldl (fun d call => setDictionary call.1 call.2 d) Dictionary.empty)
      ⟨bytes, [7]⟩ = pure (.ok m') ∧ m'.id = 300 ∧ m'.route = [0x61, 0x62] ∧ m'.data = [9] := by
  obtain ⟨bytes, m', henc, hdec, -, hdata, hid, hroute⟩ := message_round_trip noLibrary dictAb [7]
    ⟨.request, 300, [0x61, 0x62], [9], false, false⟩ (by decide) (Or.inl (by decide +kernel))
  exact ⟨bytes, m', henc, hdec, hid (Or.inl rfl), hroute (Or.inl rfl), hdata⟩

/-! ### Hostile packets -/

/-- The parts that the decoder reads are there: a flag, and the route that it announces. -/
def Framed (body : List UInt8) : Prop :=
  ∃ flag rest, body = flag :: rest ∧ (routable (typeOf flag) = true →
    RouteFits flag (rest.drop (idLength (typeOf flag) rest)))

/-- The bytes of a route, for the types that have one: a code of the dictionary, or a length and as
    many bytes. -/
def RouteOk (d : Dictionary) (flag : UInt8) (route : List UInt8) : Prop :=
  if routable (typeOf flag) then
    (flag &&& routeCompressMask = 1 ∧ ∃ hi lo r, route = [hi, lo] ∧ getRoute d (codeOf hi lo) = some r) ∨
      (¬ flag &&& routeCompressMask = 1 ∧ ∃ rl r, route = rl :: r ∧ rl.toNat = r.length)
  else route = []

/-- A flag of a known type, a terminated ID and a route for the types that have them, and data. -/
def WellFormed (d : Dictionary) (body : List UInt8) : Prop :=
  ∃ flag id route data, body = flag :: (id ++ (route ++ data)) ∧ typeOf flag ≤ MessageType.push ∧
    (if numbered (typeOf flag) then Varint.Terminated id else id = []) ∧ RouteOk d flag route

/-- No byte after the flag could end the ID that the flag announces, and without it the message would
    be well formed, with data that can be inflated if it has to be. -/
def Misread (lib : Library) (d : Dictionary) (body : List UInt8) : Prop :=
  ∃ flag route data, body = flag :: (route ++ data) ∧ numbered (typeOf flag) = true ∧
    (∀ b ∈ route ++ data, ¬ b < 128) ∧ RouteOk d flag route ∧
    (flag &&& gzipMask = gzipMask → ∃ x, lib.inflate data = .ok x)

theorem Misread.not_wellFormed {body : List UInt8} (h : Misread lib d body) : ¬ WellFormed d body := by
  obtain ⟨flag, route, data, rfl, hn, hall, -⟩ := h
  rintro ⟨flag', id, route', data', heq, -, hid, -⟩
  obtain ⟨rfl, hrest⟩ := List.cons.inj heq
  rw [if_pos hn] at hid
  obtain ⟨init, last, rfl, -, hlast⟩ := hid
  exact hall last (by rw [hrest]; simp) hlast

theorem exists_of_map_ok {A B : Type} {x : Except String A} {f : A → B} {y : B} (h : x.map f = .ok y) :
    ∃ a, x = .ok a := by
  cases x with
  | error e => cases h
  | ok a => exact ⟨a, rfl⟩

theorem not_gt_push_of_routable {t : MessageType} (h : routable t = true) : ¬ t > MessageType.push := by
  simp only [routable, Bool.or_eq_true, beq_iff_eq] at h
  rcases h with (rfl | rfl) | rfl <;> decide

theorem not_gt_push_of_numbered {t : MessageType} (h : numbered t = true) : ¬ t > MessageType.push := by
  simp only [numbered, Bool.or_eq_true, beq_iff_eq] at h
  rcases h with rfl | rfl <;> decide

theorem messageDecode_inside (h : Framed body.items) : ∃ r, messageDecode lib d body = pure r := by
  obtain ⟨flag, rest, hitems, hfits⟩ := h
  by_cases ht : typeOf flag > MessageType.push
  · rw [messageDecode_eq hitems, if_pos ht]
    exact ⟨_, rfl⟩
  obtain ⟨id, hid, -⟩ := messageDecode_known hitems ht
  have hle := idLength_le (typeOf flag) rest
  have hlen : body.items.length = rest.length + 1 := by rw [hitems, List.length_cons]
  rw [hid]
  have hroute : ∃ r, routePart d body flag (1 + idLength (typeOf flag) rest) = pure r ∧
      ∀ c route stop, r = .ok (c, route, stop) → stop ≤ body.items.length := by
    unfold routePart
    split_ifs with hr
    · refine readRoute_inside ?_ (by omega)
      rw [drop_id hitems]
      exact hfits hr
    · refine ⟨_, rfl, fun c route stop heq => ?_⟩
      simp only [Except.ok.injEq, Prod.mk.injEq] at heq
      omega
  obtain ⟨r, hr, hend⟩ := hroute
  rw [hr, pure_bind]
  cases r with
  | error e => exact ⟨_, rfl⟩
  | ok r =>
    obtain ⟨c, route, stop⟩ := r
    rw [dataPart, readData_eq (hend c route stop rfl), pure_bind]
    exact ⟨_, rfl⟩

theorem messageDecode_framed (h : (messageDecode lib d body).inside = true) : Framed body.items := by
  cases hitems : body.items with
  | nil =>
    have hlt := Buf.inside_index.mp (Access.inside_bind.mp h).1
    rw [hitems] at hlt
    exact absurd hlt (by simp)
  | cons flag rest =>
    refine ⟨flag, rest, rfl, fun hr => ?_⟩
    obtain ⟨id, hid, -⟩ := messageDecode_known hitems (not_gt_push_of_routable hr)
    rw [hid, routePart, if_pos hr] at h
    have hfits := readRoute_fits (Access.inside_bind.mp h).1
    rwa [drop_id hitems] at hfits

/-- What follows the ID of an accepted message is a route and data. -/
theorem messageDecode_ok (h : (messageDecode lib d body).result = some (.ok m)) :
    ∃ flag rest route data, body.items = flag :: rest ∧ typeOf flag ≤ MessageType.push ∧
      rest.drop (idLength (typeOf flag) rest) = route ++ data ∧ RouteOk d flag route ∧
      (flag &&& gzipMask = gzipMask → ∃ x, lib.inflate data = .ok x) := by
  have hne : ∃ flag rest, body.items = flag :: rest := by
    obtain ⟨flag, hflag, -⟩ := Access.result_bind.mp h
    rw [Buf.result_index] at hflag
    cases hitems : body.items with
    | nil => rw [hitems] at hflag; exact absurd hflag (by simp)
    | cons flag rest => exact ⟨flag, rest, rfl⟩
  obtain ⟨flag, rest, hitems⟩ := hne
  have ht : ¬ typeOf flag > MessageType.push := fun ht => by
    rw [messageDecode_eq hitems, if_pos ht] at h
    simp at h
  obtain ⟨id, hid, -⟩ := messageDecode_known hitems ht
  rw [hid] at h
  obtain ⟨r, hr, h⟩ := Access.result_bind.mp h
  obtain ⟨c, route, stop, rfl⟩ : ∃ c route stop, r = .ok (c, route, stop) := by
    cases r with
    | error e => simp [dataPart] at h
    | ok r => exact ⟨r.1, r.2.1, r.2.2, rfl⟩
  rw [dataPart] at h
  obtain ⟨data, hdata, h⟩ := Access.result_bind.mp h
  obtain ⟨data, rfl⟩ := exists_of_map_ok (Option.some.inj h)
  have hend := readData_ok hdata
  have hinflate : flag &&& gzipMask = gzipMask → ∃ x, lib.inflate (body.items.drop stop) = .ok x := by
    intro hgzip
    rw [readData_eq hend, if_pos hgzip] at hdata
    exact ⟨data, Option.some.inj hdata⟩
  have hdrop := drop_id hitems (idLength (typeOf flag) rest)
  unfold routePart at hr
  by_cases hroutable : routable (typeOf flag) = true
  · rw [if_pos hroutable] at hr
    obtain ⟨bytes, hbytes, hcode, hplain⟩ := readRoute_ok hr hend
    refine ⟨flag, rest, bytes, body.items.drop stop, hitems, UInt8.not_lt.mp ht, hdrop ▸ hbytes, ?_,
      hinflate⟩
    rw [RouteOk, if_pos hroutable]
    by_cases hc : flag &&& routeCompressMask = 1
    · obtain ⟨hi, lo, hb, hget⟩ := hcode hc
      exact Or.inl ⟨hc, hi, lo, route, hb, hget⟩
    · obtain ⟨rl, hb, hrl⟩ := hplain hc
      exact Or.inr ⟨hc, rl, route, hb, hrl⟩
  · rw [if_neg hroutable] at hr
    simp only [Access.result_pure, Option.some.injEq, Except.ok.injEq, Prod.mk.injEq] at hr
    obtain ⟨-, -, rfl⟩ := hr
    exact ⟨flag, rest, [], _, hitems, UInt8.not_lt.mp ht, hdrop.symm, by rw [RouteOk, if_neg hroutable],
      hinflate⟩

/-- The other way round, a route and data after the ID are accepted. -/
theorem messageDecode_accepts {rest route data : List UInt8} (hitems : body.items = flag :: rest)
    (ht : ¬ typeOf flag > MessageType.push)
    (hdrop : rest.drop (idLength (typeOf flag) rest) = route ++ data) (hroute : RouteOk d flag route)
    (hinflate : flag &&& gzipMask = gzipMask → ∃ x, lib.inflate data = .ok x) :
    ∃ m, messageDecode lib d body = pure (.ok m) := by
  obtain ⟨id, hid, -⟩ := messageDecode_known hitems ht
  have hle := idLength_le (typeOf flag) rest
  have hsplit : body.items = (flag :: rest.take (idLength (typeOf flag) rest)) ++ (route ++ data) := by
    rw [hitems, List.cons_append, ← hdrop, List.take_append_drop]
  have hoffset : 1 + idLength (typeOf flag) rest =
      (flag :: rest.take (idLength (typeOf flag) rest)).length := by
    rw [List.length_cons, List.length_take]; omega
  have hpart : ∃ c r, routePart d body flag (1 + idLength (typeOf flag) rest) =
      pure (.ok (c, r, 1 + idLength (typeOf flag) rest + route.length)) := by
    unfold RouteOk at hroute
    unfold routePart
    split_ifs at hroute ⊢
    · rcases hroute with ⟨hc, hi, lo, r, rfl, hget⟩ | ⟨hc, rl, r, rfl, hrl⟩
      · rw [readRoute_code hc hsplit hoffset, hget]
        exact ⟨true, r, rfl⟩
      · have hstop : 1 + idLength (typeOf flag) rest + 1 + r.length =
            1 + idLength (typeOf flag) rest + (rl :: r).length := by rw [List.length_cons]; omega
        rw [readRoute_plain hc hsplit hoffset hrl, hstop]
        exact ⟨false, r, rfl⟩
    · rw [hroute]
      exact ⟨false, [], rfl⟩
  obtain ⟨c, r, hr⟩ := hpart
  have hstop : 1 + idLength (typeOf flag) rest + route.length ≤ body.items.length := by
    rw [hsplit, List.length_append, ← hoffset, List.length_append]; omega
  have hdata : body.items.drop (1 + idLength (typeOf flag) rest + route.length) = data := by
    rw [hsplit, ← List.append_assoc]
    exact List.drop_left' (by rw [List.length_append, hoffset])
  rw [hid, hr, pure_bind, dataPart, readData_eq hstop, hdata, pure_bind]
  split_ifs with hgzip
  · obtain ⟨x, hx⟩ := hinflate hgzip
    rw [hx]
    exact ⟨_, rfl⟩
  · exact ⟨_, rfl⟩

theorem idLength_of_no_end {t : MessageType} {rest : List UInt8} (h : ∀ b ∈ rest, ¬ b < 128) :
    idLength t rest = 0 := by
  unfold idLength
  rw [Varint.read_eq_none 0 _ h]
  split_ifs <;> rfl

theorem Misread.accepted (h : Misread lib d body.items) : ∃ m, messageDecode lib d body = pure (.ok m) := by
  obtain ⟨flag, route, data, hitems, hn, hall, hroute, hinflate⟩ := h
  refine messageDecode_accepts hitems (not_gt_push_of_numbered hn) ?_ hroute hinflate
  rw [idLength_of_no_end hall, List.drop_zero]

/-- An accepted message is well formed or misread. -/
theorem messageDecode_wellFormed (h : (messageDecode lib d body).result = some (.ok m))
    (hread : ¬ Misread lib d body.items) : WellFormed d body.items := by
  obtain ⟨flag, rest, route, data, hitems, ht, hdrop, hroute, hinflate⟩ := messageDecode_ok h
  by_cases hn : numbered (typeOf flag) = true
  · by_cases hend : ∃ b ∈ rest, b < 128
    · -- the ID takes what `Varint.read` takes
      have hsome := Varint.read_isSome 0 (0 : BitVec 64) hend
      cases hread : Varint.read rest 0 (0 : BitVec 64) with
      | mk v k =>
        rw [hread] at hsome
        obtain ⟨k, rfl⟩ := Option.isSome_iff_exists.mp hsome
        obtain ⟨taken, more, rfl, hterm, hk⟩ := Varint.read_some hread
        rw [idLength, if_pos hn, hread, Option.getD_some, hk, Nat.zero_add, List.drop_left] at hdrop
        exact ⟨flag, taken, route, data, by rw [hitems, hdrop], ht, by rwa [if_pos hn], hroute⟩
    · have hall : ∀ b ∈ rest, ¬ b < 128 := fun b hb hlt => hend ⟨b, hb, hlt⟩
      rw [idLength_of_no_end hall, List.drop_zero] at hdrop
      subst hdrop
      exact absurd ⟨flag, route, data, hitems, hn, hall, hroute, hinflate⟩ hread
  · rw [idLength, if_neg hn, List.drop_zero] at hdrop
    exact ⟨flag, [], route, data, by rw [hitems, hdrop, List.nil_append], ht, by rw [if_neg hn], hroute⟩

/-- A packet is decoded without an access outside it, and accepted as a message only if its body is
    well formed, exactly when it is not a `Data` packet or all parts of its body are there and the
    body cannot be taken for a message without ID. -/
theorem hostile_packets (lib : Library) (o : Order Route) (d : Dictionary) (payload : Buf UInt8) :
    ((∃ r, decode lib o d payload = pure r) ∧
      ∀ p d', (decode lib o d payload).result = some (.ok p, d') → p.type = PackageType.data →
        WellFormed d (payload.items.drop headerLen)) ↔
    (headerLen ≤ payload.items.length → payload.items[0]? = some PackageType.data →
      Framed (payload.items.drop headerLen) ∧ ¬ Misread lib d (payload.items.drop headerLen)) := by
  obtain ⟨hshort, hdecode⟩ | ⟨hlen, htype, hdecode⟩ | ⟨hlen, type, htype, hdata, hdecode⟩ :=
    decode_cases lib o d payload
  · rw [hdecode]
    exact ⟨fun _ hlen => absurd hshort (Nat.not_lt.mpr hlen), fun _ => ⟨⟨_, rfl⟩, fun p d' h => by simp at h⟩⟩
  · rw [hdecode]
    constructor
    · rintro ⟨⟨r, hr⟩, hformed⟩ - -
      refine ⟨messageDecode_framed (Access.inside_bind.mp (by rw [hr]; rfl)).1, fun hread => ?_⟩
      obtain ⟨m, hm⟩ : ∃ m, messageDecode lib d ⟨payload.items.drop headerLen, payload.spare⟩ =
          pure (.ok m) := Misread.accepted hread
      rw [hm, pure_bind] at hformed
      exact hread.not_wellFormed (hformed _ d rfl rfl)
    · intro h
      obtain ⟨hframed, hread⟩ := h hlen htype
      refine ⟨?_, fun p d' h _ => ?_⟩
      · obtain ⟨r, hr⟩ : ∃ r, messageDecode lib d ⟨payload.items.drop headerLen, payload.spare⟩ = pure r :=
          messageDecode_inside hframed
        rw [hr, pure_bind]
        exact ⟨_, rfl⟩
      · obtain ⟨m, hm, h⟩ := Access.result_bind.mp h
        obtain ⟨m, rfl⟩ := exists_of_map_ok (congrArg Prod.fst (Option.some.inj h))
        exact messageDecode_wellFormed hm hread
  · -- no other packet is read any further, or accepted as `Data`
    refine ⟨fun _ _ h => absurd (Option.some.inj (htype.symm.trans h)) hdata, fun _ => ⟨?_, ?_⟩⟩
    · obtain ⟨e, hdecode⟩ | ⟨body, d', hdecode⟩ := hdecode
      · exact ⟨_, hdecode⟩
      · exact ⟨_, hdecode⟩
    · intro p d' h hp
      exact absurd (hp ▸ Option.some.inj (htype.symm.trans (decode_header h).1)) hdata

/-- A notification on the route `a` with one byte of data. -/
theorem hostile_packets_notify :
    (∃ r, decode noLibrary (visiting []) Dictionary.empty ⟨[4, 0, 0, 4, 0x02, 1, 0x61, 5], []⟩ = pure r) ∧
    WellFormed Dictionary.empty [0x02, 1, 0x61, 5] := by
  have hframed : Framed [0x02, 1, 0x61, 5] :=
    ⟨0x02, [1, 0x61, 5], rfl, fun _ => ⟨1, [0x61, 5], rfl, by decide⟩⟩
  have hread : ¬ Misread noLibrary Dictionary.empty [0x02, 1, 0x61, 5] := by
    rintro ⟨flag, route, data, heq, hn, -⟩
    rw [← (List.cons.inj heq).1] at hn
    exact absurd hn (by decide)
  obtain ⟨hinside, haccepted⟩ := (hostile_packets noLibrary (visiting []) Dictionary.empty
    ⟨[4, 0, 0, 4, 0x02, 1, 0x61, 5], []⟩).mpr fun _ _ => ⟨hframed, hread⟩
  exact ⟨hinside, haccepted _ _ rfl rfl⟩

/-- A `Data` packet without a body makes the decoder index beyond the end, and a response whose ID
    never ends is accepted. -/
theorem hostile_packets_fatal :
    (decode noLibrary (visiting []) Dictionary.empty ⟨[4, 0, 0, 0], []⟩).inside = false ∧
    (decode noLibrary (visiting []) Dictionary.empty ⟨[4, 0, 0, 0], []⟩).result = none ∧
    (∃ m, (decode noLibrary (visiting []) Dictionary.empty ⟨[4, 0, 0, 2, 0x04, 0x80], []⟩).result =
      some (.ok ⟨4, 2, .message m⟩, Dictionary.empty)) ∧
    ¬ WellFormed Dictionary.empty [0x04, 0x80] := by
  have hall : ∀ b ∈ ([0x80] : List UInt8), ¬ b < 128 := by
    intro b hb
    rw [List.mem_singleton.mp hb]
    decide
  have hread : Misread noLibrary Dictionary.empty [0x04, 0x80] :=
    ⟨0x04, [], [0x80], rfl, by decide, hall, rfl, fun h => absurd h (by decide)⟩
  exact ⟨rfl, rfl, ⟨_, rfl⟩, hread.not_wellFormed⟩

/-! ### The length in the header -/

/-- The header states the length of the body, and a packet that is accepted has its type and length,
    exactly when the body is shorter than the largest one that `Encode` accepts. -/
theorem header_length_iff (lib : Library) (o : Order Route) (d : Dictionary) (spare : List UInt8)
    {t : PackageType} {body packet : List UInt8} (h : encode t body = .ok packet) :
    (bytesToInt ((packet.drop 1).take (headerLen - 1)) = body.length ∧
      ∀ p d', (decode lib o d ⟨packet, spare⟩).result = some (.ok p, d') →
        p.type = t ∧ p.len.toNat = body.length) ↔ body.length < maxPacketSize := by
  obtain ⟨htype, hheader⟩ := header_of_encode h
  constructor
  · rintro ⟨hlen, -⟩
    rw [hheader] at hlen
    exact hlen ▸ Nat.mod_lt _ (by decide)
  · intro hlt
    rw [Nat.mod_eq_of_lt hlt] at hheader
    refine ⟨hheader, ?_⟩
    intro p d' hp
    obtain ⟨hpt, hpl⟩ := decode_header hp
    refine ⟨Option.some.inj (hpt.symm.trans htype), ?_⟩
    have hsmall : body.length < 2 ^ 32 := lt_trans hlt (by decide)
    rw [hpl, headerLength, hheader, UInt32.toNat_ofNat', Nat.mod_eq_of_lt hsmall]

theorem header_length_kick : ∃ packet, encode .kick [7, 8] = .ok packet ∧
    bytesToInt ((packet.drop 1).take (headerLen - 1)) = 2 ∧
    (decode noLibrary (visiting []) Dictionary.empty ⟨packet, []⟩).result =
      some (.ok ⟨.kick, 2, .nil⟩, Dictionary.empty) := by
  have hencode : encode .kick [7, 8] = .ok [5, 0, 0, 2, 7, 8] := rfl
  refine ⟨[5, 0, 0, 2, 7, 8], hencode, ?_, rfl⟩
  exact ((header_length_iff noLibrary (visiting []) Dictionary.empty [] hencode).mpr (by decide)).1

/-- The header of a body of `2 ^ 24` bytes states the length 0. -/
theorem kick_wraps {body : List UInt8} (hlen : body.length = maxPacketSize) :
    ∃ packet, encode .kick body = .ok packet ∧
      bytesToInt ((packet.drop 1).take (headerLen - 1)) = 0 ∧
      (decode noLibrary (visiting []) Dictionary.empty ⟨packet, []⟩).result =
        some (.ok ⟨.kick, 0, .nil⟩, Dictionary.empty) := by
  have henc : encode .kick body = .ok (PackageType.kick :: intToBytes body.length ++ body) :=
    encode_eq_ok.mpr ⟨by decide, le_of_eq hlen, rfl⟩
  obtain ⟨htype, hheader⟩ := header_of_encode henc
  rw [hlen, Nat.mod_self] at hheader
  refine ⟨_, henc, by rw [hlen]; exact hheader, ?_⟩
  rw [decode_other (by simp [headerLen, intToBytes]) htype (by decide) (by decide), headerLength]
  dsimp only
  rw [hlen, hheader]
  rfl

theorem header_length_wraps : ∃ packet,
    encode .kick (List.replicate maxPacketSize 0) = .ok packet ∧
    bytesToInt ((packet.drop 1).take (headerLen - 1)) = 0 ∧
    (decode noLibrary (visiting []) Dictionary.empty ⟨packet, []⟩).result =
      some (.ok ⟨.kick, 0, .nil⟩, Dictionary.empty) :=
  kick_wraps List.length_replicate

end GoServices.Wire
