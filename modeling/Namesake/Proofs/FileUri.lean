import Mathlib.Data.List.TakeWhile
import Namesake.Location
import Namesake.Proofs.Spelling
import Namesake.Proofs.Utf8

/-! Locations of files as texts. An absolute path may be written as it is or as a URI with its octets escaped. A URI
of a file is always read as the file it was written for, because escaping leaves no character that means something
else in a URI. A path that stands for itself is read as itself or refused: a text is looked at as a URI first, and
when tabs and line ends are taken out of it, two slashes may come together that seem to begin an authority. -/

namespace Namesake.Location

open Text

/-! ### Escapes -/

theorem plain_facts {b : UInt8} (h : isPlain b = true) :
    (Char.ofNat b.toNat).toNat = b.toNat ∧ b.toNat < 0x80 ∧ Char.ofNat b.toNat ≠ '%' := by
  have hall : ∀ k : Fin 256, isPlain (UInt8.ofNat k) = true →
      (Char.ofNat k).toNat = k ∧ (k : Nat) < 0x80 ∧ Char.ofNat k ≠ '%' := by decide +kernel
  have hb := hall ⟨b.toNat, b.toNat_lt⟩
  rw [UInt8.ofNat_toNat] at hb
  exact hb h

/-- The octet of an escape is read back, whatever follows. -/
theorem unescapeFrom_escapeOctet (pending : Octets) (b : UInt8) (rest : List Char) :
    unescapeFrom pending (escapeOctet b ++ rest) = unescapeFrom (b :: pending) rest := by
  unfold escapeOctet
  split_ifs with hplain
  · obtain ⟨hsame, hsmall, hne⟩ := plain_facts hplain
    rw [List.singleton_append, unescapeFrom.eq_3 _ _ _ fun _ _ _ h _ => hne h, hsame, if_pos hsmall, UInt8.ofNat_toNat]
  · have hlt := b.toNat_lt
    have hhigh := Hex.value?_upperDigit (n := b.toNat / 16) (by omega)
    have hlow := Hex.value?_upperDigit (n := b.toNat % 16) (by omega)
    have hsum : b.toNat / 16 * 16 + b.toNat % 16 = b.toNat := by omega
    simp only [List.cons_append, List.nil_append, unescapeFrom, hhigh, hlow, hsum, UInt8.ofNat_toNat]

theorem unescapeFrom_flatMap (pending data : Octets) :
    unescapeFrom pending (data.flatMap escapeOctet) = Utf8.decodeLossyFrom none (pending.reverse ++ data) := by
  induction data generalizing pending with
  | nil => rw [List.flatMap_nil, unescapeFrom, List.append_nil]
  | cons b data ih =>
      rw [List.flatMap_cons, unescapeFrom_escapeOctet, ih, List.reverse_cons, List.append_assoc]
      rfl

/-- Undoing the escapes of a text gives the text. -/
theorem unescape_escape (s : String) : unescape (escape s).toList = s := by
  calc unescape (escape s).toList = String.ofList (unescapeFrom [] ((Utf8.encode s).flatMap escapeOctet)) := by
        rw [unescape, escape, String.toList_ofList]
    _ = String.ofList (Utf8.decodeLossyFrom none (Utf8.encode s)) := by
        rw [unescapeFrom_flatMap, List.reverse_nil, List.nil_append]
    _ = s := by rw [Utf8.encode, Utf8.decodeLossyFrom_encodeChars, String.ofList_toList]

/-- What an escaped text leaves out: what a URI ends its path with, and what is taken out of a URI. -/
theorem not_mem_escape {c : Char} (hc : c ∈ ['?', '#', '\t', '\r', '\n']) (s : String) : c ∉ (escape s).toList := by
  have hall : ∀ k : Fin 256,
      ((escapeOctet (UInt8.ofNat k)).all fun d => d ∉ ['?', '#', '\t', '\r', '\n']) = true := by decide +kernel
  rw [escape, String.toList_ofList]
  intro hmem
  obtain ⟨b, -, hb⟩ := List.mem_flatMap.mp hmem
  have hoctet := hall ⟨b.toNat, b.toNat_lt⟩
  rw [UInt8.ofNat_toNat] at hoctet
  exact forall_mem_of_all hoctet c hb hc

theorem escape_slash (cs : List Char) :
    (escape (String.ofList ('/' :: cs))).toList = '/' :: (escape (String.ofList cs)).toList := by
  rw [escape, escape, String.toList_ofList, String.toList_ofList, Utf8.encode_ofList, Utf8.encode_ofList]
  rfl

/-! ### Reading locations -/

theorem cleaned_eq_self {c : Char} {cs : List Char} (hc : ¬ c ≤ ' ')
    (h : ∀ d ∈ c :: cs, d ∉ ['\t', '\r', '\n']) : cleaned (c :: cs) = c :: cs := by
  rw [cleaned, List.dropWhile_cons_of_neg (by simpa using hc), List.filter_eq_self]
  intro d hd
  have hd := h d hd
  simp only [List.mem_cons, List.not_mem_nil, or_false, not_or] at hd
  exact decide_eq_true hd

/-- The URI of a file is read as the file. -/
theorem parse_uri {s : String} (h : s.toList.head? = some '/') : parse ("file://" ++ escape s) = .ok (ofFile s) := by
  obtain ⟨cs, hcs⟩ := List.head?_eq_some_iff.mp h
  have hs : s = String.ofList ('/' :: cs) := by rw [← hcs, String.ofList_toList]
  have hslash : (escape s).toList = '/' :: (escape (String.ofList cs)).toList := by rw [hs, escape_slash]
  have hchars : ("file://" ++ escape s).toList = 'f' :: 'i' :: 'l' :: 'e' :: ':' :: '/' :: '/' :: (escape s).toList := by
    rw [String.toList_append]
    rfl
  have hclean : cleaned ("file://" ++ escape s).toList = ("file://" ++ escape s).toList := by
    rw [hchars]
    refine cleaned_eq_self (by decide) fun d hd => ?_
    have hfront : ∀ d ∈ ['f', 'i', 'l', 'e', ':', '/', '/'], d ∉ ['\t', '\r', '\n'] :=
      forall_mem_of_all (by decide)
    rcases List.mem_append.mp (show d ∈ ['f', 'i', 'l', 'e', ':', '/', '/'] ++ (escape s).toList from hd) with hd | hd
    · exact hfront d hd
    · exact fun hmem => not_mem_escape (List.mem_cons_of_mem _ (List.mem_cons_of_mem _ hmem)) s hd
  have hscheme : cutScheme ('f' :: 'i' :: 'l' :: 'e' :: ':' :: '/' :: '/' :: (escape s).toList) =
      (['f', 'i', 'l', 'e'], '/' :: '/' :: (escape s).toList) := by
    simp [cutScheme, isSchemeChar]
  have hpath : (escape s).toList.takeWhile (fun c => c != '?' && c != '#') = (escape s).toList := by
    have hall : ∀ d ∈ (escape s).toList, (d != '?' && d != '#') = true := by
      intro d hd
      rw [Bool.and_eq_true, bne_iff_ne, bne_iff_ne]
      refine ⟨?_, ?_⟩
      · rintro rfl
        exact not_mem_escape (by decide) s hd
      · rintro rfl
        exact not_mem_escape (by decide) s hd
    exact List.takeWhile_eq_self_iff.mpr hall
  have hauthority : cutAuthority ('/' :: '/' :: (escape s).toList) = ([], (escape s).toList) := by
    rw [hslash]
    rfl
  unfold parse
  rw [hclean, hchars, hscheme]
  dsimp only
  rw [hauthority]
  dsimp only
  rw [hpath, unescape_escape]
  rfl

theorem cleaned_slash (cs : List Char) :
    cleaned ('/' :: cs) = '/' :: cs.filter fun c => c ≠ '\t' ∧ c ≠ '\r' ∧ c ≠ '\n' := by
  rw [cleaned, List.dropWhile_cons_of_neg (by decide)]
  rfl

/-- A path from the root is read as itself, unless what seems to be an authority is refused. -/
theorem parse_path {s : String} (h : s.toList.head? = some '/') :
    parse s = (Authority.check (cutAuthority (cleaned s.toList)).1).map fun _ => ofFile s := by
  obtain ⟨cs, hcs⟩ := List.head?_eq_some_iff.mp h
  have hscheme (ds : List Char) : cutScheme ('/' :: ds) = ([], '/' :: ds) := by
    unfold cutScheme
    rw [List.takeWhile_cons_of_pos (by decide)]
    dsimp only
    split
    · rename_i c _ _ _ hfront _
      obtain ⟨rfl, -⟩ := List.cons.inj hfront
      rfl
    · rfl
  unfold parse
  rw [hcs, cleaned_slash, hscheme]
  dsimp only
  cases Authority.check (cutAuthority ('/' :: cs.filter fun c => c ≠ '\t' ∧ c ≠ '\r' ∧ c ≠ '\n')).1 <;> rfl

/-- A path whose first name holds something else than tabs and line ends is read as itself. -/
theorem parse_path_of_mem {s : String} {name rest : List Char} {c : Char} (hs : s.toList = '/' :: (name ++ rest))
    (hslash : '/' ∉ name) (hc : c ∈ name) (hkept : c ∉ ['\t', '\r', '\n']) : parse s = .ok (ofFile s) := by
  have hmem : c ∈ name.filter fun c => c ≠ '\t' ∧ c ≠ '\r' ∧ c ≠ '\n' := by
    simp only [List.mem_cons, List.not_mem_nil, or_false, not_or] at hkept
    exact List.mem_filter.mpr ⟨hc, decide_eq_true hkept⟩
  obtain ⟨d, ds, hfilter⟩ := List.exists_cons_of_ne_nil (List.ne_nil_of_mem hmem)
  have hd : d ≠ '/' := by
    rintro rfl
    have hfront : '/' ∈ name.filter fun c => c ≠ '\t' ∧ c ≠ '\r' ∧ c ≠ '\n' := hfilter ▸ List.mem_cons_self
    exact hslash (List.mem_filter.mp hfront).1
  have hauthority (es : List Char) : cutAuthority ('/' :: d :: es) = ([], '/' :: d :: es) := by
    unfold cutAuthority
    split
    · rename_i heq
      exact absurd (List.cons.inj (List.cons.inj heq).2).1 hd
    · rfl
  rw [parse_path (by rw [hs]; rfl), hs, cleaned_slash, List.filter_append, hfilter, List.cons_append, hauthority]
  rfl

end Namesake.Location
