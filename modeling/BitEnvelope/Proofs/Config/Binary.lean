import BitEnvelope.Config.Binary
import BitEnvelope.Proofs.Fallible

/-!
# The binary form is canonical

Every part of the format has one law: its reader accepts the data exactly if the data begin with
the form of a value, and it hands back that value and what follows it. The law of a record is put
together from the laws of its fields, and that of a list is by induction on its length. Whatever
has the law is prefix-free: no form begins with another one, and no reader accepts a part of a form.

Sizes take eight bytes, so a text or list is written as it is only if its length fits into them.
Every value that a reader returns is of that kind.
-/

namespace BitEnvelope.Config

namespace Binary

-- As in `Word`, `256 ^ n` is the power of the core library.
attribute [local instance (high)] instPowNat

variable {α : Type}

/-- `read` accepts exactly the data that begin with the form of a value for which `P` holds. -/
def Inverts (read : Reader α) (write : α → List UInt8) (P : α → Prop) : Prop :=
  ∀ bs x rest, read bs = .ok (x, rest) ↔ P x ∧ bs = write x ++ rest

namespace Inverts

variable {read : Reader α} {write : α → List UInt8} {P : α → Prop} {x y : α} {rest : List UInt8}

theorem read_write (h : Inverts read write P) (hx : P x) (rest : List UInt8) :
    read (write x ++ rest) = .ok (x, rest) :=
  (h _ x rest).mpr ⟨hx, rfl⟩

/-- A step after the reader goes on from a value that the data begin with. -/
theorem bind_iff (h : Inverts read write P) {β : Type} {f : α × List UInt8 → Except Fault β}
    {bs : List UInt8} {out : β} :
    read bs >>= f = .ok out ↔ ∃ x rest, (P x ∧ bs = write x ++ rest) ∧ f (x, rest) = .ok out := by
  rw [bind_eq_ok, Prod.exists]
  exact exists_congr fun x => exists_congr fun rest => and_congr_left fun _ => h bs x rest

/-- What data begin with, and what follows it, is determined by the data. -/
theorem injective (h : Inverts read write P) (hx : P x) (hy : P y) {r s : List UInt8}
    (heq : write x ++ r = write y ++ s) : x = y ∧ r = s := by
  have hread := h.read_write hx r
  rw [heq, h.read_write hy s, Except.ok.injEq, Prod.mk.injEq] at hread
  exact ⟨hread.1.symm, hread.2.symm⟩

theorem fails_of_part (h : Inverts read write P) (hx : P x) {part : List UInt8}
    (hpart : part <+: write x) (hne : part ≠ write x) : ∃ fault, read part = .error fault := by
  cases hread : read part with
  | error fault => exact ⟨fault, rfl⟩
  | ok out =>
      obtain ⟨y, r⟩ := out
      obtain ⟨hy, heq⟩ := (h _ _ _).mp hread
      obtain ⟨missing, hmissing⟩ := hpart
      -- the part holds a whole form, which must then be that of `x`, with nothing missing
      have hwhole : write x ++ [] = write y ++ (r ++ missing) := by
        rw [List.append_nil, ← hmissing, heq, List.append_assoc]
      obtain ⟨-, hnil⟩ := h.injective hx hy hwhole
      rw [(List.append_eq_nil_iff.mp hnil.symm).2, List.append_nil] at hmissing
      exact absurd hmissing hne

end Inverts

/-! ## Bytes of a number -/

@[simp] theorem length_bytes (n m : Nat) : (bytes n m).length = n := by
  induction n generalizing m with
  | zero => rfl
  | succ n ih => rw [bytes, List.length_cons, ih]

theorem ofBytes_bytes (n m : Nat) : ofBytes (bytes n m) = m % 256 ^ n := by
  induction n generalizing m with
  | zero => exact (Nat.mod_one m).symm
  | succ n ih =>
      rw [bytes, ofBytes, ih, Nat.pow_succ', Nat.mod_mul]
      rfl

theorem ofBytes_lt (bs : List UInt8) : ofBytes bs < 256 ^ bs.length := by
  induction bs with
  | nil => exact Nat.one_pos
  | cons b bs ih =>
      have hb : b.toNat < 256 := b.toNat_lt
      rw [ofBytes, List.length_cons, Nat.pow_succ]
      omega

theorem bytes_ofBytes (bs : List UInt8) : bytes bs.length (ofBytes bs) = bs := by
  induction bs with
  | nil => rfl
  | cons b bs ih =>
      have hb : b.toNat < 256 := b.toNat_lt
      have hfirst : UInt8.ofNat (b.toNat + 256 * ofBytes bs) = b := by
        apply UInt8.toNat.inj
        rw [UInt8.toNat_ofNat']
        omega
      have hrest : (b.toNat + 256 * ofBytes bs) / 256 = ofBytes bs := by omega
      rw [List.length_cons, ofBytes, bytes, hfirst, hrest, ih]

theorem readBytes_eq_ok {n : Nat} {bs front rest : List UInt8} :
    readBytes n bs = .ok (front, rest) ↔ front.length = n ∧ bs = front ++ rest := by
  rw [readBytes]
  constructor
  · intro h
    split at h
    · rename_i hlen
      cases h
      exact ⟨hlen, (List.take_append_drop n bs).symm⟩
    · cases h
  · rintro ⟨rfl, rfl⟩
    rw [List.take_left, if_pos rfl, List.drop_left]

/-! ## Scalars -/

theorem readSize_inverts : Inverts readSize size fun _ => True := by
  intro bs n rest
  rw [readSize, bind_eq_ok]
  constructor
  · rintro ⟨⟨front, rest'⟩, hfront, hn⟩
    obtain ⟨hlen, rfl⟩ := readBytes_eq_ok.mp hfront
    have hlt : ofBytes front < UInt64.size := by
      have := ofBytes_lt front
      rwa [hlen] at this
    cases hn
    refine ⟨trivial, ?_⟩
    rw [size, UInt64.toNat_ofNat_of_lt' hlt, ← hlen, bytes_ofBytes]
  · rintro ⟨-, rfl⟩
    refine ⟨(size n, rest), readBytes_eq_ok.mpr ⟨length_bytes _ _, rfl⟩, ?_⟩
    have hback : ofBytes (size n) = n.toNat := by
      rw [size, ofBytes_bytes]
      exact Nat.mod_eq_of_lt n.toNat_lt
    change Except.ok (UInt64.ofNat (ofBytes (size n)), rest) = _
    rw [hback, UInt64.ofNat_toNat]

theorem readFlag_inverts : Inverts readFlag flag fun _ => True := by
  intro bs b rest
  constructor
  · intro h
    unfold readFlag at h
    split at h <;> cases h
    · exact ⟨trivial, rfl⟩
    · exact ⟨trivial, rfl⟩
  · rintro ⟨-, rfl⟩
    cases b <;> rfl

/-! ## Texts -/

theorem fromUTF8?_eq_some {b : ByteArray} {s : String} :
    String.fromUTF8? b = some s ↔ b = s.toUTF8 := by
  constructor
  · intro h
    unfold String.fromUTF8? at h
    split at h
    · rw [Option.some.injEq] at h
      subst h
      rfl
    · cases h
  · rintro rfl
    exact dif_pos s.isValidUTF8

theorem length_toUTF8 (s : String) : s.toUTF8.data.toList.length = s.utf8ByteSize :=
  s.toUTF8.data.length_toList.trans String.size_toByteArray

theorem readText_inverts : Inverts readText text fun s => s.utf8ByteSize < UInt64.size := by
  intro bs s rest
  rw [readText, readSize_inverts.bind_iff]
  constructor
  · rintro ⟨n, bs₁, ⟨-, rfl⟩, hafter⟩
    obtain ⟨⟨front, bs₂⟩, hfront, hout⟩ := bind_eq_ok.mp hafter
    obtain ⟨hlen, rfl⟩ := readBytes_eq_ok.mp hfront
    dsimp only at hout
    split at hout
    · rename_i s' hs
      cases hout
      have hdata : front = s.toUTF8.data.toList :=
        congrArg (fun b => b.data.toList) (fromUTF8?_eq_some.mp hs)
      have hsize : s.utf8ByteSize = n.toNat := by
        rw [← length_toUTF8, ← hdata, hlen]
      refine ⟨lt_of_eq_of_lt hsize n.toNat_lt, ?_⟩
      rw [text, hsize, UInt64.ofNat_toNat, ← hdata, List.append_assoc]
    · cases hout
  · rintro ⟨hs, rfl⟩
    rw [text, List.append_assoc]
    refine ⟨_, _, ⟨trivial, rfl⟩, bind_eq_ok.mpr ⟨(s.toUTF8.data.toList, rest), ?_, ?_⟩⟩
    · refine readBytes_eq_ok.mpr ⟨?_, rfl⟩
      rw [length_toUTF8, UInt64.toNat_ofNat_of_lt' hs]
    · dsimp only
      rw [fromUTF8?_eq_some.mpr rfl]
      rfl

/-! ## Lists -/

section Lists

variable {read : Reader α} {write : α → List UInt8} {P : α → Prop}

theorem readMany_eq_ok (h : Inverts read write P) {n : Nat} {bs rest : List UInt8} {xs : List α} :
    readMany read n bs = .ok (xs, rest) ↔
      (∀ x ∈ xs, P x) ∧ xs.length = n ∧ bs = xs.flatMap write ++ rest := by
  induction n generalizing bs xs with
  | zero =>
      constructor
      · intro hread
        cases hread
        exact ⟨List.forall_mem_nil P, rfl, rfl⟩
      · rintro ⟨-, hlen, rfl⟩
        rw [List.length_eq_zero_iff.mp hlen]
        rfl
  | succ n ih =>
      rw [readMany, h.bind_iff]
      constructor
      · rintro ⟨x, bs₁, ⟨hP, rfl⟩, hafter⟩
        obtain ⟨⟨ys, bs₂⟩, hys, heq⟩ := bind_eq_ok.mp hafter
        cases heq
        obtain ⟨hall, hlen, rfl⟩ := ih.mp hys
        refine ⟨List.forall_mem_cons.mpr ⟨hP, hall⟩, congrArg (· + 1) hlen, ?_⟩
        rw [List.flatMap_cons, List.append_assoc]
      · rintro ⟨hall, hlen, rfl⟩
        cases xs with
        | nil => cases hlen
        | cons x ys =>
            obtain ⟨hP, hall⟩ := List.forall_mem_cons.mp hall
            have hys := ih.mpr ⟨hall, Nat.succ.inj hlen, rfl⟩
            rw [List.flatMap_cons, List.append_assoc]
            exact ⟨_, _, ⟨hP, rfl⟩, bind_eq_ok.mpr ⟨_, hys, rfl⟩⟩

theorem readList_inverts (h : Inverts read write P) :
    Inverts (readList read) (list write) fun xs => xs.length < UInt64.size ∧ ∀ x ∈ xs, P x := by
  intro bs xs rest
  rw [readList, readSize_inverts.bind_iff]
  constructor
  · rintro ⟨n, bs₁, ⟨-, rfl⟩, hxs⟩
    obtain ⟨hall, hlen, rfl⟩ := (readMany_eq_ok h).mp hxs
    refine ⟨⟨hlen ▸ n.toNat_lt, hall⟩, ?_⟩
    rw [list, hlen, UInt64.ofNat_toNat, List.append_assoc]
  · rintro ⟨⟨hlen, hall⟩, rfl⟩
    rw [list, List.append_assoc]
    refine ⟨_, _, ⟨trivial, rfl⟩, (readMany_eq_ok h).mpr ⟨hall, ?_, rfl⟩⟩
    exact (UInt64.toNat_ofNat_of_lt' hlen).symm

end Lists

/-! ## Records -/

theorem readPin_inverts : Inverts readPin pin fun _ => True := by
  intro bs p rest
  rw [readPin, readSize_inverts.bind_iff]
  constructor
  · rintro ⟨index, bs₁, ⟨-, rfl⟩, hafter⟩
    obtain ⟨value, bs₂, ⟨-, rfl⟩, heq⟩ := readFlag_inverts.bind_iff.mp hafter
    cases heq
    exact ⟨trivial, (List.append_assoc _ _ _).symm⟩
  · rintro ⟨-, rfl⟩
    rw [pin, List.append_assoc]
    refine ⟨_, _, ⟨trivial, rfl⟩, ?_⟩
    exact readFlag_inverts.bind_iff.mpr ⟨_, _, ⟨trivial, rfl⟩, rfl⟩

theorem readRange_inverts : Inverts readRange range fun r =>
    r.lower.utf8ByteSize < UInt64.size ∧ r.upper.utf8ByteSize < UInt64.size := by
  intro bs r rest
  rw [readRange, readText_inverts.bind_iff]
  constructor
  · rintro ⟨lower, bs₁, ⟨hlower, rfl⟩, hafter⟩
    obtain ⟨upper, bs₂, ⟨hupper, rfl⟩, heq⟩ := readText_inverts.bind_iff.mp hafter
    cases heq
    exact ⟨⟨hlower, hupper⟩, (List.append_assoc _ _ _).symm⟩
  · rintro ⟨⟨hlower, hupper⟩, rfl⟩
    rw [range, List.append_assoc]
    refine ⟨_, _, ⟨hlower, rfl⟩, ?_⟩
    exact readText_inverts.bind_iff.mpr ⟨_, _, ⟨hupper, rfl⟩, rfl⟩

theorem readPins_inverts :
    Inverts (readList readPin) (list pin) fun ps => ps.length < UInt64.size := by
  intro bs ps rest
  rw [readList_inverts readPin_inverts bs ps rest]
  exact and_congr_left' (and_iff_left fun _ _ => trivial)

theorem readRanges_inverts : Inverts (readList readRange) (list range) fun rs =>
    rs.length < UInt64.size ∧
      ∀ r ∈ rs, r.lower.utf8ByteSize < UInt64.size ∧ r.upper.utf8ByteSize < UInt64.size :=
  readList_inverts readRange_inverts

end Binary

/-! ## Configurations -/

/-- The lengths of all texts and lists fit into the eight bytes that each is given. -/
structure Sized (c : Config) : Prop where
  version : c.version.utf8ByteSize < UInt64.size
  pins : c.pins.length < UInt64.size
  ranges : c.ranges.length < UInt64.size
  bounds : ∀ r ∈ c.ranges, r.lower.utf8ByteSize < UInt64.size ∧ r.upper.utf8ByteSize < UInt64.size

namespace Binary

theorem readConfig_inverts : Inverts readConfig toBinary Sized := by
  intro bs c rest
  rw [readConfig, readText_inverts.bind_iff]
  constructor
  · rintro ⟨version, bs₁, ⟨hversion, rfl⟩, h₁⟩
    obtain ⟨width, bs₂, ⟨-, rfl⟩, h₂⟩ := readSize_inverts.bind_iff.mp h₁
    obtain ⟨sign, bs₃, ⟨-, rfl⟩, h₃⟩ := readSize_inverts.bind_iff.mp h₂
    obtain ⟨pins, bs₄, ⟨hpins, rfl⟩, h₄⟩ := readPins_inverts.bind_iff.mp h₃
    obtain ⟨ranges, bs₅, ⟨⟨hranges, hbounds⟩, rfl⟩, heq⟩ := readRanges_inverts.bind_iff.mp h₄
    cases heq
    refine ⟨⟨hversion, hpins, hranges, hbounds⟩, ?_⟩
    simp only [toBinary, List.append_assoc]
  · rintro ⟨⟨hversion, hpins, hranges, hbounds⟩, rfl⟩
    simp only [toBinary, List.append_assoc]
    refine ⟨_, _, ⟨hversion, rfl⟩, ?_⟩
    refine readSize_inverts.bind_iff.mpr ⟨_, _, ⟨trivial, rfl⟩, ?_⟩
    refine readSize_inverts.bind_iff.mpr ⟨_, _, ⟨trivial, rfl⟩, ?_⟩
    refine readPins_inverts.bind_iff.mpr ⟨_, _, ⟨hpins, rfl⟩, ?_⟩
    exact readRanges_inverts.bind_iff.mpr ⟨_, _, ⟨⟨hranges, hbounds⟩, rfl⟩, rfl⟩

end Binary

variable {c : Config}

theorem ofBinary_eq_ok {bs : List UInt8} : ofBinary bs = .ok c ↔ c.Sized ∧ c.toBinary <+: bs := by
  rw [ofBinary]
  constructor
  · intro h
    cases hread : Binary.readConfig bs with
    | error fault =>
        rw [hread] at h
        cases h
    | ok out =>
        obtain ⟨c', rest⟩ := out
        rw [hread] at h
        cases h
        obtain ⟨hsized, rfl⟩ := (Binary.readConfig_inverts _ _ _).mp hread
        exact ⟨hsized, List.prefix_append _ rest⟩
  · rintro ⟨hsized, rest, rfl⟩
    rw [Binary.readConfig_inverts.read_write hsized rest]
    rfl

/-- The binary form is canonical: data are read as `c` exactly if they begin with its form. So what
is written is read back whatever follows, a part of it is rejected, and no other configuration has
the same form. -/
theorem binary_canonical (hc : c.Sized) :
    (∀ bs, ofBinary bs = .ok c ↔ c.toBinary <+: bs) ∧
      (∀ rest, ofBinary (c.toBinary ++ rest) = .ok c) ∧
      (∀ part, part <+: c.toBinary → part ≠ c.toBinary → ∃ fault, ofBinary part = .error fault) ∧
      (∀ d : Config, d.Sized → d.toBinary = c.toBinary → d = c) ∧
      ∀ bs d, ofBinary bs = .ok d → d.Sized := by
  have hiff : ∀ bs, ofBinary bs = .ok c ↔ c.toBinary <+: bs := fun bs =>
    ofBinary_eq_ok.trans (and_iff_right hc)
  refine ⟨hiff, fun rest => (hiff _).mpr (List.prefix_append _ rest), ?_, ?_, ?_⟩
  · intro part hpart hne
    obtain ⟨fault, hfault⟩ := Binary.readConfig_inverts.fails_of_part hc hpart hne
    exact ⟨fault, congrArg (Except.map Prod.fst) hfault⟩
  · intro d hd heq
    exact (Binary.readConfig_inverts.injective hd hc (congrArg (· ++ []) heq)).1
  · intro bs d h
    exact (ofBinary_eq_ok.mp h).1

/-- A pin, an interval that is not one, and a letter that takes two bytes. -/
def oneOfEach : Config :=
  { version := "é", width := 258, signedPrefix := 2, pins := [{ index := 3, value := true }],
    ranges := [{ lower := "-5", upper := "" }] }

theorem binary_canonical_oneOfEach :
    let form : List UInt8 :=
      [2, 0, 0, 0, 0, 0, 0, 0, 0xc3, 0xa9, 2, 1, 0, 0, 0, 0, 0, 0, 2, 0, 0, 0, 0, 0, 0, 0,
        1, 0, 0, 0, 0, 0, 0, 0, 3, 0, 0, 0, 0, 0, 0, 0, 1,
        1, 0, 0, 0, 0, 0, 0, 0, 2, 0, 0, 0, 0, 0, 0, 0, 0x2d, 0x35, 0, 0, 0, 0, 0, 0, 0, 0]
    oneOfEach.Sized ∧ oneOfEach.toBinary = form ∧ ofBinary (form ++ [7]) = .ok oneOfEach ∧
      ∃ fault, ofBinary form.dropLast = .error fault := by
  intro form
  have hsized : oneOfEach.Sized := ⟨by decide, by decide, by decide, by decide⟩
  have hform : oneOfEach.toBinary = form := by decide
  obtain ⟨-, hread, hpart, -, -⟩ := binary_canonical hsized
  rw [hform] at hread hpart
  exact ⟨hsized, hform, hread [7], hpart _ (List.dropLast_prefix form) (by decide)⟩

end BitEnvelope.Config
