import Mathlib
import Validity.Host

/-!
Strict decoding of UTF-8. Octets are decoded iff they are the UTF-8 of some text, and they are
decoded to that text. One character at a time: what is scanned at the front of octets is a character
iff its octets stand there, since the range of the second octet shuts out overlong forms, surrogates
and numbers above the last code point.
-/
namespace Validity

namespace Text.Utf8

def Continues (c : Nat) : Prop := 0x80 ≤ c ∧ c ≤ 0xBF

structure Follows (b c : Nat) : Prop where
  continues : Continues c
  overlong_three : b = 0xE0 → 0xA0 ≤ c
  surrogate : b = 0xED → c ≤ 0x9F
  overlong_four : b = 0xF0 → 0x90 ≤ c
  last : b = 0xF4 → c ≤ 0x8F

/-- The second octet is a continuation, and four first octets narrow its range. -/
theorem follows_iff (b c : Nat) : Follows b c ↔ (0x80 ≤ c ∧ c ≤ 0xBF) ∧ (b = 0xE0 → 0xA0 ≤ c) ∧
    (b = 0xED → c ≤ 0x9F) ∧ (b = 0xF0 → 0x90 ≤ c) ∧ (b = 0xF4 → c ≤ 0x8F) := by
  constructor
  · intro h
    exact ⟨h.continues, h.overlong_three, h.surrogate, h.overlong_four, h.last⟩
  · rintro ⟨h1, h2, h3, h4, h5⟩
    exact ⟨h1, h2, h3, h4, h5⟩

structure Lead.Begins (l : Lead) (b : Nat) : Prop where
  length : (0xC2 ≤ b ∧ b < 0xE0 ∧ l.bits = b - 0xC0 ∧ l.more = 0) ∨
    (0xE0 ≤ b ∧ b < 0xF0 ∧ l.bits = b - 0xE0 ∧ l.more = 1) ∨
    (0xF0 ≤ b ∧ b ≤ 0xF4 ∧ l.bits = b - 0xF0 ∧ l.more = 2)
  second (c : Nat) : (l.low ≤ c ∧ c ≤ l.high) ↔ Follows b c

theorem lead?_begins {b : Nat} {l : Lead} (h : lead? b = some l) : l.Begins b := by
  unfold lead? at h
  split_ifs at h
  all_goals
    obtain rfl := Option.some.inj h
    refine ⟨by dsimp only; omega, fun c => ?_⟩
    rw [follows_iff]
    dsimp only
    omega

theorem exists_lead {b : Nat} (h : 0xC2 ≤ b ∧ b ≤ 0xF4) : ∃ l, lead? b = some l := by
  cases hl : lead? b with
  | some l => exact ⟨l, rfl⟩
  | none =>
    unfold lead? at hl
    split_ifs at hl
    all_goals omega

/-- The octets of a character, by its code point. -/
theorem encode_eq (c : Char) : String.utf8EncodeChar c =
    if c.toNat ≤ 0x7F then [UInt8.ofNat c.toNat]
    else if c.toNat ≤ 0x7FF then
      [UInt8.ofNat (c.toNat / 0x40 % 0x20 + 0xC0), UInt8.ofNat (c.toNat % 0x40 + 0x80)]
    else if c.toNat ≤ 0xFFFF then
      [UInt8.ofNat (c.toNat / 0x1000 % 0x10 + 0xE0), UInt8.ofNat (c.toNat / 0x40 % 0x40 + 0x80),
        UInt8.ofNat (c.toNat % 0x40 + 0x80)]
    else
      [UInt8.ofNat (c.toNat / 0x40000 % 8 + 0xF0), UInt8.ofNat (c.toNat / 0x1000 % 0x40 + 0x80),
        UInt8.ofNat (c.toNat / 0x40 % 0x40 + 0x80), UInt8.ofNat (c.toNat % 0x40 + 0x80)] := rfl

theorem ofNat_eq {n : Nat} {b : UInt8} (h : n = b.toNat) : UInt8.ofNat n = b := by
  rw [h, UInt8.ofNat_toNat]

/-- Code points that are no surrogates are characters. -/
theorem toNat_ofNat {n : Nat} (h : n < 0xD800 ∨ (0xDFFF < n ∧ n < 0x110000)) :
    (Char.ofNat n).toNat = n := by
  rw [Char.toNat_ofNat, if_pos h]

theorem encode_one {b : UInt8} (hb : b.toNat < 0x80) :
    String.utf8EncodeChar (Char.ofNat b.toNat) = [b] := by
  rw [encode_eq, toNat_ofNat (by omega), if_pos (by omega), UInt8.ofNat_toNat]

/-- Two well-formed octets are the encoding of the code point that they spell. -/
theorem encode_two {b c : UInt8} (hb : 0xC2 ≤ b.toNat ∧ b.toNat < 0xE0) (hc : Continues c.toNat) :
    String.utf8EncodeChar (Char.ofNat (64 * (b.toNat - 0xC0) + (c.toNat - 0x80))) = [b, c] := by
  unfold Continues at hc
  rw [encode_eq, toNat_ofNat (by omega), if_neg (by omega), if_pos (by omega),
    ofNat_eq (b := b) (by omega), ofNat_eq (b := c) (by omega)]

/-- Three well-formed octets are the encoding of the code point that they spell. -/
theorem encode_three {b c d : UInt8} (hb : 0xE0 ≤ b.toNat ∧ b.toNat < 0xF0)
    (hc : Follows b.toNat c.toNat) (hd : Continues d.toNat) :
    String.utf8EncodeChar
      (Char.ofNat (64 * (64 * (b.toNat - 0xE0) + (c.toNat - 0x80)) + (d.toNat - 0x80))) =
        [b, c, d] := by
  -- the range of the second octet keeps the number above two octets and off the surrogates
  rw [follows_iff] at hc
  unfold Continues at hd
  rw [encode_eq, toNat_ofNat (by omega), if_neg (by omega), if_neg (by omega), if_pos (by omega),
    ofNat_eq (b := b) (by omega), ofNat_eq (b := c) (by omega), ofNat_eq (b := d) (by omega)]

/-- Four well-formed octets are the encoding of the code point that they spell. -/
theorem encode_four {b c d e : UInt8} (hb : 0xF0 ≤ b.toNat ∧ b.toNat ≤ 0xF4)
    (hc : Follows b.toNat c.toNat) (hd : Continues d.toNat) (he : Continues e.toNat) :
    String.utf8EncodeChar
      (Char.ofNat (64 * (64 * (64 * (b.toNat - 0xF0) + (c.toNat - 0x80)) + (d.toNat - 0x80)) +
        (e.toNat - 0x80))) = [b, c, d, e] := by
  -- here it keeps the number above three octets and below the end of the code points
  rw [follows_iff] at hc
  unfold Continues at hd he
  rw [encode_eq, toNat_ofNat (by omega), if_neg (by omega), if_neg (by omega), if_neg (by omega),
    ofNat_eq (b := b) (by omega), ofNat_eq (b := c) (by omega), ofNat_eq (b := d) (by omega),
    ofNat_eq (b := e) (by omega)]

def tailBits (bits : Nat) (tail : List UInt8) : Nat :=
  tail.foldl (fun v b => 64 * v + (b.toNat - 0x80)) bits

@[simp] theorem tailBits_nil (bits : Nat) : tailBits bits [] = bits := rfl

@[simp] theorem tailBits_cons (bits : Nat) (b : UInt8) (tail : List UInt8) :
    tailBits bits (b :: tail) = tailBits (64 * bits + (b.toNat - 0x80)) tail := by
  rw [tailBits, List.foldl_cons, tailBits]

/-- A character comes of as many octets in the range as are missing. -/
theorem scanTail_eq_char_iff (bits seen more : Nat) (bs : List UInt8) (c : Char) (n : Nat) :
    scanTail bits seen more bs = .char c n ↔ ∃ tail rest, bs = tail ++ rest ∧ tail.length = more ∧
      (∀ x ∈ tail, Continues x.toNat) ∧ c = Char.ofNat (tailBits bits tail) ∧ n = seen + more := by
  induction more generalizing bits seen bs with
  | zero =>
    rw [scanTail, Item.char.injEq]
    constructor
    · rintro ⟨rfl, rfl⟩
      exact ⟨[], bs, rfl, rfl, by simp, rfl, rfl⟩
    · rintro ⟨tail, rest, -, hlength, -, rfl, rfl⟩
      rw [List.length_eq_zero_iff.mp hlength]
      exact ⟨rfl, rfl⟩
  | succ more ih =>
    cases bs with
    | nil =>
      rw [scanTail]
      constructor
      · intro h
        cases h
      · rintro ⟨tail, rest, hnil, hlength, -⟩
        rw [(List.append_eq_nil_iff.mp hnil.symm).1] at hlength
        cases hlength
    | cons b bs =>
      rw [scanTail]
      constructor
      · intro h
        split_ifs at h with hb
        obtain ⟨tail, rest, hbs, hlength, htail, hc, hn⟩ := (ih _ _ _).mp h
        refine ⟨b :: tail, rest, by rw [hbs, List.cons_append], by rw [List.length_cons, hlength],
          ?_, by rw [hc, tailBits_cons], by omega⟩
        intro x hx
        rcases List.mem_cons.mp hx with rfl | hx
        · exact hb
        · exact htail x hx
      · rintro ⟨tail, rest, hbs, hlength, htail, hc, hn⟩
        obtain ⟨x, tail, rfl⟩ := List.exists_cons_of_length_eq_add_one hlength
        obtain ⟨rfl, rfl⟩ := List.cons.inj hbs
        have hb : 0x80 ≤ b.toNat ∧ b.toNat ≤ 0xBF := htail b List.mem_cons_self
        rw [if_pos hb]
        refine (ih _ _ _).mpr ⟨tail, rest, rfl, by simpa using hlength, ?_,
          by rw [hc, tailBits_cons], by omega⟩
        intro x hx
        exact htail x (List.mem_cons_of_mem _ hx)

/-- A longer character: its first octet says how many follow, and they are in their ranges. -/
theorem scan_eq_char_iff {b : UInt8} (hb : ¬ b.toNat < 0x80) (bs : List UInt8) (c : Char)
    (n : Nat) : scan b bs = .char c n ↔ ∃ l second tail rest, lead? b.toNat = some l ∧
      bs = second :: (tail ++ rest) ∧ Follows b.toNat second.toNat ∧ tail.length = l.more ∧
      (∀ x ∈ tail, Continues x.toNat) ∧
      c = Char.ofNat (tailBits (64 * l.bits + (second.toNat - 0x80)) tail) ∧ n = 1 + l.more := by
  rw [scan, if_neg hb]
  constructor
  · intro h
    cases hl : lead? b.toNat with
    | none =>
      rw [hl] at h
      cases h
    | some l =>
      rw [hl] at h
      cases bs with
      | nil => cases h
      | cons second bs =>
        dsimp only at h
        split_ifs at h with hsecond
        obtain ⟨tail, rest, rfl, hlength, htail, hc, hn⟩ := (scanTail_eq_char_iff ..).mp h
        have hfollows := ((lead?_begins hl).second second.toNat).mp hsecond
        exact ⟨l, second, tail, rest, rfl, rfl, hfollows, hlength, htail, hc, hn⟩
  · rintro ⟨l, second, tail, rest, hl, rfl, hfollows, hlength, htail, hc, hn⟩
    rw [hl]
    dsimp only
    rw [if_pos (((lead?_begins hl).second second.toNat).mpr hfollows)]
    exact (scanTail_eq_char_iff ..).mpr ⟨tail, rest, rfl, hlength, htail, hc, hn⟩

/-- What is scanned as a character are the octets of this character. -/
theorem eq_encode_of_scan {b : UInt8} {bs : List UInt8} {c : Char} {n : Nat}
    (h : scan b bs = .char c n) : b :: bs = String.utf8EncodeChar c ++ bs.drop n := by
  by_cases hascii : b.toNat < 0x80
  · rw [scan, if_pos hascii] at h
    obtain ⟨rfl, rfl⟩ := Item.char.inj h
    rw [encode_one hascii]
    rfl
  obtain ⟨l, second, tail, rest, hl, rfl, hfollows, hlength, htail, rfl, rfl⟩ :=
    (scan_eq_char_iff hascii bs c n).mp h
  -- the first octet tells how many octets there are
  rcases (lead?_begins hl).length with ⟨h1, h2, hbits, hmore⟩ | ⟨h1, h2, hbits, hmore⟩ |
    ⟨h1, h2, hbits, hmore⟩
  · obtain rfl := List.length_eq_zero_iff.mp (hlength.trans hmore)
    rw [hbits, hmore, tailBits_nil, encode_two ⟨h1, h2⟩ hfollows.continues]
    rfl
  · obtain ⟨third, rfl⟩ := List.length_eq_one_iff.mp (hlength.trans hmore)
    rw [hbits, hmore, tailBits_cons, tailBits_nil,
      encode_three ⟨h1, h2⟩ hfollows (htail third (by simp))]
    rfl
  · obtain ⟨third, fourth, rfl⟩ := List.length_eq_two.mp (hlength.trans hmore)
    rw [hbits, hmore, tailBits_cons, tailBits_cons, tailBits_nil,
      encode_four ⟨h1, h2⟩ hfollows (htail third (by simp)) (htail fourth (by simp))]
    rfl

theorem octet_toNat {n : Nat} (h : n < 256) : (UInt8.ofNat n).toNat = n :=
  UInt8.toNat_ofNat_of_lt' h

theorem continues_octet (n : Nat) : Continues (UInt8.ofNat (n % 0x40 + 0x80)).toNat := by
  rw [octet_toNat (by omega), Continues]
  omega

theorem exists_lead_octet {n : Nat} (h : 0xC2 ≤ n ∧ n ≤ 0xF4) :
    ∃ l, lead? (UInt8.ofNat n).toNat = some l ∧ l.Begins n := by
  rw [octet_toNat (by omega)]
  obtain ⟨l, hl⟩ := exists_lead h
  exact ⟨l, hl, lead?_begins hl⟩

/-- Octets of which the first announces the others are scanned as their code point. -/
theorem scan_announced {b second : UInt8} (tail : List UInt8) {c : Char} {l : Lead}
    (hl : lead? b.toNat = some l) (hsecond : Follows b.toNat second.toNat)
    (hlength : tail.length = l.more) (htail : ∀ x ∈ tail, Continues x.toNat)
    (hc : tailBits (64 * l.bits + (second.toNat - 0x80)) tail = c.toNat) (rest : List UInt8) :
    scan b (second :: (tail ++ rest)) = .char c (tail.length + 1) := by
  have hascii : ¬ b.toNat < 0x80 := by
    have hlead := (lead?_begins hl).length
    omega
  refine (scan_eq_char_iff hascii _ _ _).mpr
    ⟨l, second, tail, rest, hl, rfl, hsecond, hlength, htail, ?_, by omega⟩
  rw [hc, Char.ofNat_toNat]

/-- The octets of a character are scanned as this character, whatever follows them. -/
theorem scan_encode (c : Char) (rest : List UInt8) : ∃ b tail,
    String.utf8EncodeChar c = b :: tail ∧ scan b (tail ++ rest) = .char c tail.length := by
  have hvalid : c.toNat < 0xD800 ∨ (0xDFFF < c.toNat ∧ c.toNat < 0x110000) := c.valid
  rw [encode_eq]
  -- a longer character announces its length, and its bits are put together again
  split_ifs with hone htwo hthree
  · refine ⟨_, [], rfl, ?_⟩
    rw [scan, octet_toNat (by omega), if_pos (by omega), Char.ofNat_toNat, List.length_nil]
  · obtain ⟨l, hl, hbegins⟩ := exists_lead_octet (n := c.toNat / 0x40 % 0x20 + 0xC0) (by omega)
    have hlead := hbegins.length
    refine ⟨_, [_], rfl, scan_announced [] hl ((follows_iff _ _).mpr ?_) ?_ (by simp) ?_
      rest⟩
    · simp (disch := omega) only [octet_toNat]
      omega
    · rw [List.length_nil]
      omega
    · simp (disch := omega) only [octet_toNat, tailBits_nil]
      omega
  · obtain ⟨l, hl, hbegins⟩ := exists_lead_octet (n := c.toNat / 0x1000 % 0x10 + 0xE0) (by omega)
    have hlead := hbegins.length
    refine ⟨_, [_, _], rfl, scan_announced [_] hl ((follows_iff _ _).mpr ?_) ?_
      (List.forall_mem_singleton.mpr (continues_octet _)) ?_ rest⟩
    · simp (disch := omega) only [octet_toNat]
      omega
    · rw [List.length_singleton]
      omega
    · simp (disch := omega) only [octet_toNat, tailBits_cons, tailBits_nil]
      omega
  · obtain ⟨l, hl, hbegins⟩ := exists_lead_octet (n := c.toNat / 0x40000 % 8 + 0xF0) (by omega)
    have hlead := hbegins.length
    refine ⟨_, [_, _, _], rfl, scan_announced [_, _] hl ((follows_iff _ _).mpr ?_) ?_
      (List.forall_mem_cons.mpr
        ⟨continues_octet _, List.forall_mem_singleton.mpr (continues_octet _)⟩) ?_ rest⟩
    · simp (disch := omega) only [octet_toNat]
      omega
    · rw [List.length_cons, List.length_singleton]
      omega
    · simp (disch := omega) only [octet_toNat, tailBits_cons, tailBits_nil]
      omega

/-- What was encoded is decoded again, wherever it begins. -/
theorem decodeFrom_encode (cs : List Char) (position : Nat) :
    decodeFrom position (cs.flatMap String.utf8EncodeChar) = .ok cs := by
  induction cs generalizing position with
  | nil => rw [List.flatMap_nil, decodeFrom]
  | cons c cs ih =>
    obtain ⟨b, tail, hc, hscan⟩ := scan_encode c (cs.flatMap String.utf8EncodeChar)
    rw [List.flatMap_cons, hc, List.cons_append, decodeFrom, hscan]
    dsimp only
    rw [List.drop_left, ih]
    rfl

/-- Only what is an encoding is decoded. -/
theorem eq_encode_of_decodeFrom {position : Nat} {bs : List UInt8} {cs : List Char}
    (h : decodeFrom position bs = .ok cs) : bs = cs.flatMap String.utf8EncodeChar := by
  induction position, bs using decodeFrom.induct generalizing cs with
  | case1 position =>
    rw [decodeFrom] at h
    cases h
    rfl
  | case2 position b bs r n hscan =>
    rw [decodeFrom, hscan] at h
    cases h
  | case3 position b bs c n hscan ih =>
    rw [decodeFrom, hscan] at h
    dsimp only at h
    cases hrest : decodeFrom (position + n + 1) (bs.drop n) with
    | error f =>
      rw [hrest] at h
      cases h
    | ok rest =>
      rw [hrest] at h
      obtain rfl := Except.ok.inj h
      rw [List.flatMap_cons, ← ih hrest]
      exact eq_encode_of_scan hscan

/-- Octets are decoded to a text iff they are its octets. -/
theorem decode_eq_ok_iff (bs : List UInt8) (cs : List Char) :
    decode bs = .ok cs ↔ bs = cs.flatMap String.utf8EncodeChar := by
  constructor
  · exact eq_encode_of_decodeFrom
  · rintro rfl
    exact decodeFrom_encode cs 0

end Text.Utf8

theorem toList_loop (bs : ByteArray) (i : Nat) (r : List UInt8) :
    ByteArray.toList.loop bs i r = r.reverse ++ bs.data.toList.drop i := by
  induction i, r using ByteArray.toList.loop.induct bs with
  | case1 i r hi ih =>
    have hlength : i < bs.data.toList.length := hi
    have hget : bs.get! i = bs.data.toList[i] := getElem!_pos bs.data i hi
    rw [ByteArray.toList.loop, if_pos hi, ih, List.drop_eq_getElem_cons hlength, hget,
      List.reverse_cons, List.append_assoc, List.singleton_append]
  | case2 i r hi =>
    have hlength : bs.data.toList.length ≤ i := Nat.le_of_not_lt hi
    rw [ByteArray.toList.loop, if_neg hi, List.drop_eq_nil_of_le hlength, List.append_nil]

theorem Host.octets_ofList (cs : List Char) :
    octets (String.ofList cs) = cs.flatMap String.utf8EncodeChar := by
  rw [octets, String.toUTF8, ByteArray.toList, toList_loop, String.toByteArray_ofList,
    List.utf8Encode, List.data_toByteArray]
  rfl

/-- Octets are decoded iff they are the octets of a text, and then to it. -/
theorem Host.decode_eq_ok_iff (bs : List UInt8) (cs : List Char) :
    Text.Utf8.decode bs = .ok cs ↔ octets (String.ofList cs) = bs := by
  rw [Text.Utf8.decode_eq_ok_iff, octets_ofList, eq_comm]

end Validity
