import Mathlib.Logic.Relation
import ObSink.Lib.Ends
import ObSink.Lib.Text

/-! # The spelling of a server URL

`core/src/server_url.rs`: what every client keys its keychain entries by, and when
two spellings of one server come out the same.
-/

namespace ObSink

open Text (isWhitespace)

/-- Hosts a server moved away from, with where it lives now. -/
def legacyServerAliases : List (String × String) :=
  [("https://obsink.spencerjireh.com", "https://obsink-api.spencerjireh.com")]

/-- `://` -/
def mark : List Char := [':', '/', '/']

def startsWithMark (chars : List Char) : Bool := mark.isPrefixOf chars

/-- `split_once("://")` -/
def splitScheme : List Char → Option (List Char × List Char)
  | [] => none
  | c :: rest =>
      if startsWithMark (c :: rest) then some ([], rest.drop 2)
      else (splitScheme rest).map fun (scheme, rest) => (c :: scheme, rest)

/-- `trim`, then `trim_end_matches('/')`. -/
def trimmed (url : List Char) : List Char :=
  ((url.dropWhile isWhitespace).rdropWhile isWhitespace).rdropWhile (· = '/')

/-- A scheme and host, the current ones for those of a legacy host. -/
def currentHost (out : List Char) : List Char :=
  match legacyServerAliases.find? fun (legacy, _) => legacy.toList = out with
  | some (_, current) => current.toList
  | none => out

/-- What `normalize_server_url` makes of a URL that is trimmed. -/
def respell (trimmed : List Char) : List Char :=
  match splitScheme trimmed with
  | some (scheme, rest) =>
      let (host, path) := (Text.splitOnce '/' rest).getD (rest, [])
      let out := currentHost (scheme.map Char.toLower ++ mark ++ host.map Char.toLower)
      if path = [] then out else out ++ '/' :: path
  | none => trimmed

/-- Trimmed, no trailing slash, scheme and host in lower case, and a legacy host
replaced by its current one. -/
def normalizeServerUrl (url : String) : String :=
  String.ofList (respell (trimmed url.toList))

/-- The legacy spellings that normalise to a URL that is normalised. -/
def legacyServerUrls (canonical : String) : List String :=
  (legacyServerAliases.filter fun (_, current) => current = canonical).map fun (legacy, _) => legacy

example : normalizeServerUrl " HTTPS://Example.ObSink.test/ " = "https://example.obsink.test" := by
  decide

example : normalizeServerUrl "HTTPS://OBSINK.spencerjireh.com/vaults" =
    "https://obsink-api.spencerjireh.com/vaults" := by
  decide

/-! ## Letter case -/

theorem toLower_cases (c : Char) :
    c.toLower = c ∨ 65 ≤ c.toNat ∧ c.toNat ≤ 90 ∧ c.toLower.toNat = c.toNat + 32 := by
  unfold Char.toLower
  split
  next hupper =>
    right
    obtain ⟨hlow, hhigh⟩ := hupper
    have hrange : 65 ≤ c.toNat ∧ c.toNat ≤ 90 :=
      ⟨UInt32.le_iff_toNat_le.mp hlow, UInt32.le_iff_toNat_le.mp hhigh⟩
    refine ⟨hrange.1, hrange.2, ?_⟩
    change (c.val + 32).toNat = c.toNat + 32
    rw [UInt32.toNat_add]
    change (c.toNat + 32) % 2 ^ 32 = c.toNat + 32
    omega
  next => exact Or.inl rfl

theorem isWhitespace_toLower (c : Char) : isWhitespace c.toLower = isWhitespace c := by
  rcases toLower_cases c with hsame | ⟨hlow, hhigh, hlower⟩
  · rw [hsame]
  · have hplain : isWhitespace c = false := by
      simp [isWhitespace]
      omega
    have hlowered : isWhitespace c.toLower = false := by
      simp [isWhitespace, hlower]
      omega
    rw [hplain, hlowered]

/-- Below the letters, only a character itself is lowered to it. -/
theorem toLower_eq_iff {c d : Char} (hd : d.toNat < 65) : c.toLower = d ↔ c = d := by
  rcases toLower_cases c with hsame | ⟨hlow, hhigh, hlower⟩
  · rw [hsame]
  · constructor
    · rintro rfl
      omega
    · rintro rfl
      omega

def lower (chars : List Char) : List Char := chars.map Char.toLower

theorem toLower_toLower (c : Char) : c.toLower.toLower = c.toLower := by
  rcases toLower_cases c with hsame | ⟨hlow, hhigh, hlower⟩
  · rw [hsame, hsame]
  · rcases toLower_cases c.toLower with hsame | ⟨-, hagain, -⟩
    · exact hsame
    · omega

@[simp] theorem lower_lower (chars : List Char) : lower (lower chars) = lower chars := by
  rw [lower, lower, List.map_map]
  exact List.map_congr_left fun c _ => toLower_toLower c

@[simp] theorem lower_append (left right : List Char) :
    lower (left ++ right) = lower left ++ lower right :=
  List.map_append

@[simp] theorem lower_mark : lower mark = mark := by
  decide

theorem mem_lower_iff {chars : List Char} {d : Char} (hd : d.toNat < 65) :
    d ∈ lower chars ↔ d ∈ chars := by
  simp only [lower, List.mem_map, toLower_eq_iff hd, exists_eq_right]

/-! ## Scheme and host -/

theorem startsWithMark_iff {chars : List Char} :
    startsWithMark chars = true ↔ ∃ rest, chars = mark ++ rest := by
  rw [startsWithMark, List.isPrefixOf_iff_prefix]
  exact exists_congr fun rest => eq_comm

/-- The mark does not overlap itself. -/
theorem startsWithMark_append {c : Char} {scheme : List Char}
    (hnot : startsWithMark (c :: scheme) = false) (rest : List Char) :
    startsWithMark (c :: (scheme ++ mark ++ rest)) = false := by
  rw [← Bool.not_eq_true] at hnot ⊢
  rintro hmark
  obtain ⟨after, hafter⟩ := startsWithMark_iff.mp hmark
  match scheme with
  | [] => simp [mark] at hafter
  | [d] => simp [mark] at hafter
  | d :: e :: others =>
      apply hnot
      rw [startsWithMark_iff]
      simp only [mark, List.cons_append, List.nil_append, List.cons.injEq] at hafter ⊢
      exact ⟨others, hafter.1, hafter.2.1, hafter.2.2.1, rfl⟩

theorem splitScheme_append {scheme : List Char} (hnone : splitScheme scheme = none)
    (rest : List Char) : splitScheme (scheme ++ mark ++ rest) = some (scheme, rest) := by
  induction scheme with
  | nil => simp [splitScheme, startsWithMark, mark]
  | cons c scheme ih =>
      rw [splitScheme] at hnone
      split at hnone
      next => cases hnone
      next hnot =>
        have hrest := ih (Option.map_eq_none_iff.mp hnone)
        rw [List.cons_append, List.cons_append, splitScheme,
          startsWithMark_append (Bool.not_eq_true _ ▸ hnot) rest, hrest]
        rfl

theorem splitScheme_eq_some {chars scheme rest : List Char}
    (hsplit : splitScheme chars = some (scheme, rest)) :
    chars = scheme ++ mark ++ rest ∧ splitScheme scheme = none := by
  induction chars generalizing scheme with
  | nil => cases hsplit
  | cons c chars ih =>
      rw [splitScheme] at hsplit
      split at hsplit
      next hmark =>
        obtain ⟨rfl, rfl⟩ := Prod.mk.inj (Option.some.inj hsplit)
        obtain ⟨after, hafter⟩ := startsWithMark_iff.mp hmark
        obtain ⟨rfl, rfl⟩ := List.cons.inj hafter
        exact ⟨rfl, rfl⟩
      next hnot =>
        obtain ⟨⟨before, after⟩, hfound, hpair⟩ := Option.map_eq_some_iff.mp hsplit
        obtain ⟨rfl, rfl⟩ := Prod.mk.inj hpair
        obtain ⟨rfl, hnone⟩ := ih hfound
        refine ⟨rfl, ?_⟩
        rw [splitScheme, if_neg, hnone]
        · rfl
        · intro hmark
          obtain ⟨others, hothers⟩ := startsWithMark_iff.mp hmark
          apply hnot
          rw [startsWithMark_iff]
          refine ⟨others ++ mark ++ after, ?_⟩
          rw [← List.append_assoc, ← List.append_assoc, ← hothers]
          rfl

theorem startsWithMark_lower (chars : List Char) :
    startsWithMark (lower chars) = startsWithMark chars := by
  have hsame : ∀ c d : Char, d.toNat < 65 → (d == c.toLower) = (d == c) := by
    intro c d hd
    rw [Bool.eq_iff_iff, beq_iff_eq, beq_iff_eq, eq_comm, toLower_eq_iff hd, eq_comm]
  match chars with
  | [] => rfl
  | [a] => simp [startsWithMark, mark, lower, List.isPrefixOf]
  | [a, b] => simp [startsWithMark, mark, lower, List.isPrefixOf]
  | a :: b :: c :: rest =>
      simp only [startsWithMark, mark, lower, List.map_cons, List.isPrefixOf_cons_cons,
        hsame a ':' (by decide), hsame b '/' (by decide), hsame c '/' (by decide),
        List.isPrefixOf_nil_left]

theorem splitScheme_lower {chars : List Char} :
    splitScheme (lower chars) = none ↔ splitScheme chars = none := by
  induction chars with
  | nil => exact Iff.rfl
  | cons c rest ih =>
      have hmark := startsWithMark_lower (c :: rest)
      rw [lower, List.map_cons, ← lower] at hmark ⊢
      rw [splitScheme, splitScheme, hmark]
      split
      next => exact iff_of_false (Option.some_ne_none _) (Option.some_ne_none _)
      next => rw [Option.map_eq_none_iff, Option.map_eq_none_iff, ih]

/-! ## What is respelled -/

/-- A scheme, and a host behind the mark. -/
structure IsHead (scheme host : List Char) : Prop where
  scheme : splitScheme scheme = none
  host : '/' ∉ host

/-- The rest of a URL that does not end with a slash. -/
def IsTail (tail : List Char) : Prop := tail = [] ∨ ∃ path, path ≠ [] ∧ tail = '/' :: path

section Respell

variable {scheme host tail chars : List Char}

theorem respell_parts (hhead : IsHead scheme host) (htail : IsTail tail) :
    respell (scheme ++ mark ++ (host ++ tail)) =
      currentHost (lower (scheme ++ mark ++ host)) ++ tail := by
  have hlower : lower (scheme ++ mark ++ host) = scheme.map Char.toLower ++ mark ++
      host.map Char.toLower := by
    rw [lower_append, lower_append, lower_mark]
    rfl
  rw [respell, splitScheme_append hhead.scheme, hlower]
  simp only
  rcases htail with rfl | ⟨path, hpath, rfl⟩
  · rw [List.append_nil, Text.splitOnce_eq_none hhead.host]
    exact (List.append_nil _).symm
  · rw [Text.splitOnce_append hhead.host]
    exact if_neg hpath

theorem respell_of_none (hnone : splitScheme chars = none) : respell chars = chars := by
  rw [respell, hnone]

/-- What does not end with a slash has no scheme, or comes apart. -/
theorem exists_parts (hlast : ∀ c ∈ chars.getLast?, c ≠ '/') :
    splitScheme chars = none ∨ ∃ scheme host tail, IsHead scheme host ∧ IsTail tail ∧
      chars = scheme ++ mark ++ (host ++ tail) := by
  cases hsplit : splitScheme chars with
  | none => exact Or.inl rfl
  | some pair =>
      obtain ⟨scheme, rest⟩ := pair
      obtain ⟨rfl, hnone⟩ := splitScheme_eq_some hsplit
      right
      refine ⟨scheme, rest.takeWhile (· ≠ '/'), rest.dropWhile (· ≠ '/'), ⟨hnone, ?_⟩, ?_, ?_⟩
      · intro hmem
        simpa using List.mem_takeWhile_imp hmem
      · cases hrest : rest.dropWhile (· ≠ '/') with
        | nil => exact Or.inl rfl
        | cons c path =>
            have hslash := Ends.head?_dropWhile (p := (· ≠ '/')) (l := rest) c (by rw [hrest]; rfl)
            have hc : c = '/' := by simpa using hslash
            subst hc
            right
            refine ⟨path, ?_, rfl⟩
            rintro rfl
            refine hlast '/' ?_ rfl
            rw [← List.takeWhile_append_dropWhile (p := (· ≠ '/')) (l := rest), hrest]
            simp
      · rw [List.takeWhile_append_dropWhile]

theorem currentHost_cases (out : List Char) :
    currentHost out = out ∨ out = "https://obsink.spencerjireh.com".toList ∧
      currentHost out = "https://obsink-api.spencerjireh.com".toList := by
  by_cases hlegacy : out = "https://obsink.spencerjireh.com".toList
  · right
    refine ⟨hlegacy, ?_⟩
    rw [hlegacy]
    decide
  · left
    have hnone : legacyServerAliases.find? (fun (legacy, _) => legacy.toList = out) = none := by
      refine List.find?_eq_none.mpr (List.forall_mem_singleton.mpr ?_)
      intro hfound
      exact hlegacy (of_decide_eq_true hfound).symm
    rw [currentHost, hnone]

theorem currentHost_currentHost (out : List Char) :
    currentHost (currentHost out) = currentHost out := by
  rcases currentHost_cases out with hsame | ⟨_, hcurrent⟩
  · rw [hsame, hsame]
  · rw [hcurrent]
    decide

theorem lower_currentHost (out : List Char) :
    lower (currentHost (lower out)) = currentHost (lower out) := by
  rcases currentHost_cases (lower out) with hsame | ⟨_, hcurrent⟩
  · rw [hsame, lower_lower]
  · rw [hcurrent]
    decide

theorem count_currentHost (out : List Char) : (currentHost out).count '/' = out.count '/' := by
  rcases currentHost_cases out with hsame | ⟨rfl, hcurrent⟩
  · rw [hsame]
  · rw [hcurrent]
    decide

/-- What stands for a scheme and host is a scheme and host. -/
theorem IsHead.current (hhead : IsHead scheme host) : ∃ scheme' host', IsHead scheme' host' ∧
    currentHost (lower (scheme ++ mark ++ host)) = scheme' ++ mark ++ host' := by
  rcases currentHost_cases (lower (scheme ++ mark ++ host)) with hsame | ⟨_, hcurrent⟩
  · refine ⟨lower scheme, lower host, ⟨splitScheme_lower.mpr hhead.scheme, ?_⟩, ?_⟩
    · rw [mem_lower_iff (by decide)]
      exact hhead.host
    · rw [hsame, lower_append, lower_append, lower_mark]
  · refine ⟨"https".toList, "obsink-api.spencerjireh.com".toList, ⟨?_, ?_⟩, ?_⟩
    · decide
    · decide
    · rw [hcurrent]
      decide

theorem respell_respell (hlast : ∀ c ∈ chars.getLast?, c ≠ '/') :
    respell (respell chars) = respell chars := by
  rcases exists_parts hlast with hnone | ⟨scheme, host, tail, hhead, htail, rfl⟩
  · rw [respell_of_none hnone, respell_of_none hnone]
  · obtain ⟨scheme', host', hhead', hcurrent⟩ := hhead.current
    rw [respell_parts hhead htail, hcurrent, List.append_assoc _ host', respell_parts hhead' htail,
      ← hcurrent, lower_currentHost, currentHost_currentHost, hcurrent, List.append_assoc]

theorem count_respell (hlast : ∀ c ∈ chars.getLast?, c ≠ '/') :
    (respell chars).count '/' = chars.count '/' := by
  rcases exists_parts hlast with hnone | ⟨scheme, host, tail, hhead, htail, rfl⟩
  · rw [respell_of_none hnone]
  · have hlower : (lower (scheme ++ mark ++ host)).count '/' =
        (scheme ++ mark ++ host).count '/' := by
      rw [lower, List.count_eq_countP, List.countP_map, List.count_eq_countP]
      apply List.countP_congr
      intro c _
      rw [Function.comp_apply, beq_iff_eq, beq_iff_eq, toLower_eq_iff (by decide)]
    rw [respell_parts hhead htail, List.count_append, count_currentHost, hlower,
      ← List.count_append, List.append_assoc]

/-! ## The ends of a URL -/

/-- What is cut off the end in the end: white space and slashes. -/
def junk (c : Char) : Bool := isWhitespace c || c = '/'

theorem junk_toLower (c : Char) : junk c.toLower = junk c := by
  rw [junk, junk, isWhitespace_toLower, decide_eq_decide.mpr (toLower_eq_iff (by decide))]

/-- No white space in front, no white space or slash at the back. -/
structure Solid (chars : List Char) : Prop where
  front : ∀ c ∈ chars.head?, isWhitespace c = false
  back : ∀ c ∈ chars.getLast?, junk c = false

theorem junk_eq_false {c : Char} : junk c = false ↔ isWhitespace c = false ∧ c ≠ '/' := by
  rw [junk, Bool.or_eq_false_iff, decide_eq_false_iff_not]

theorem Solid.trimmed_eq (hsolid : Solid chars) : trimmed chars = chars := by
  have hback : ∀ c ∈ chars.getLast?, isWhitespace c = false ∧ c ≠ '/' := fun c hlast =>
    junk_eq_false.mp (hsolid.back c hlast)
  rw [trimmed, Ends.dropWhile_eq_self hsolid.front,
    Ends.rdropWhile_eq_self fun c hlast => (hback c hlast).1,
    Ends.rdropWhile_eq_self fun c hlast => decide_eq_false (hback c hlast).2]

theorem front_lower (hfront : ∀ c ∈ chars.head?, isWhitespace c = false) :
    ∀ c ∈ (lower chars).head?, isWhitespace c = false := by
  intro c hhead
  rw [lower, List.head?_map] at hhead
  obtain ⟨d, hd, rfl⟩ := Option.map_eq_some_iff.mp hhead
  rw [isWhitespace_toLower]
  exact hfront d hd

theorem back_lower (hback : ∀ c ∈ chars.getLast?, junk c = false) :
    ∀ c ∈ (lower chars).getLast?, junk c = false := by
  intro c hlast
  rw [lower, List.getLast?_map] at hlast
  obtain ⟨d, hd, rfl⟩ := Option.map_eq_some_iff.mp hlast
  rw [junk_toLower]
  exact hback d hd

theorem front_currentHost (hfront : ∀ c ∈ chars.head?, isWhitespace c = false) :
    ∀ c ∈ (currentHost chars).head?, isWhitespace c = false := by
  rcases currentHost_cases chars with hsame | ⟨_, hcurrent⟩
  · rw [hsame]
    exact hfront
  · have hhead : (currentHost chars).head? = some 'h' := by
      rw [hcurrent]
      decide
    rw [hhead]
    rintro c ⟨⟩
    decide

theorem back_currentHost (hback : ∀ c ∈ chars.getLast?, junk c = false) :
    ∀ c ∈ (currentHost chars).getLast?, junk c = false := by
  rcases currentHost_cases chars with hsame | ⟨_, hcurrent⟩
  · rw [hsame]
    exact hback
  · have hlast : (currentHost chars).getLast? = some 'm' := by
      rw [hcurrent]
      decide
    rw [hlast]
    rintro c ⟨⟩
    decide

theorem head?_parts (scheme host tail : List Char) :
    (scheme ++ mark ++ (host ++ tail)).head? = (scheme ++ mark ++ host).head? := by
  rw [← List.append_assoc, List.head?_append_of_ne_nil]
  simp [mark]

/-- A solid URL stays solid. -/
theorem Solid.respell (hsolid : Solid chars) : Solid (respell chars) := by
  rcases exists_parts fun c hlast => (junk_eq_false.mp (hsolid.back c hlast)).2 with
    hnone | ⟨scheme, host, tail, hhead, htail, rfl⟩
  · rw [respell_of_none hnone]
    exact hsolid
  · obtain ⟨scheme', host', _, hcurrent⟩ := hhead.current
    have hfront := hsolid.front
    have hback := hsolid.back
    rw [head?_parts] at hfront
    rw [respell_parts hhead htail]
    constructor
    · rw [hcurrent, List.append_assoc _ host', head?_parts, ← hcurrent]
      exact front_currentHost (front_lower hfront)
    · by_cases hnil : tail = []
      · subst hnil
        rw [List.append_nil] at hback ⊢
        exact back_currentHost (back_lower hback)
      · rw [← List.append_assoc, List.getLast?_append_of_ne_nil _ hnil] at hback
        rw [List.getLast?_append_of_ne_nil _ hnil]
        exact hback

/-- White space at the back stays there. -/
theorem respell_back {c : Char} (hlast : chars.getLast? = some c) (hspace : isWhitespace c = true) :
    ∃ d, (respell chars).getLast? = some d ∧ isWhitespace d = true := by
  have hslash : ∀ d ∈ chars.getLast?, d ≠ '/' := by
    intro d hd
    rw [hlast] at hd
    rintro rfl
    rw [Option.some.inj hd] at hspace
    exact absurd hspace (by decide)
  rcases exists_parts hslash with hnone | ⟨scheme, host, tail, hhead, htail, rfl⟩
  · rw [respell_of_none hnone]
    exact ⟨c, hlast, hspace⟩
  · rw [respell_parts hhead htail]
    by_cases hnil : tail = []
    · subst hnil
      rw [List.append_nil] at hlast ⊢
      have hlower : (lower (scheme ++ mark ++ host)).getLast? = some c.toLower := by
        rw [lower, List.getLast?_map, hlast]
        rfl
      rcases currentHost_cases (lower (scheme ++ mark ++ host)) with hsame | ⟨hlegacy, _⟩
      · rw [hsame]
        exact ⟨c.toLower, hlower, (isWhitespace_toLower c).trans hspace⟩
      · -- the legacy host does not end with white space
        have hm : some 'm' = some c.toLower := by
          rw [← hlower, hlegacy]
          decide
        rw [← isWhitespace_toLower, ← Option.some.inj hm] at hspace
        exact absurd hspace (by decide)
    · rw [← List.append_assoc, List.getLast?_append_of_ne_nil _ hnil] at hlast
      rw [List.getLast?_append_of_ne_nil _ hnil]
      exact ⟨c, hlast, hspace⟩

end Respell

/-! ## Settled spellings -/

/-- A URL of which no white space is left at the end once it is trimmed. -/
def Settled (url : List Char) : Prop := ∀ c ∈ (trimmed url).getLast?, isWhitespace c = false

instance (url : List Char) : Decidable (Settled url) :=
  inferInstanceAs (Decidable (∀ c ∈ (trimmed url).getLast?, isWhitespace c = false))

/-- A URL without the white space in front and everything that is cut off the end. -/
def clean (url : List Char) : List Char := (url.dropWhile isWhitespace).rdropWhile junk

section Settled

variable {url : List Char}

theorem trimmed_front (url : List Char) : ∀ c ∈ (trimmed url).head?, isWhitespace c = false := by
  intro c hhead
  have hprefix : trimmed url <+: url.dropWhile isWhitespace :=
    (List.rdropWhile_prefix _ _).trans (List.rdropWhile_prefix _ _)
  obtain ⟨rest, hrest⟩ := hprefix
  apply Ends.head?_dropWhile (l := url) c
  rw [← hrest, List.head?_append, hhead]
  rfl

theorem trimmed_back (url : List Char) : ∀ c ∈ (trimmed url).getLast?, c ≠ '/' := by
  intro c hlast
  exact of_decide_eq_false (Ends.getLast?_rdropWhile c hlast)

theorem Settled.solid (hsettled : Settled url) : Solid (trimmed url) :=
  ⟨trimmed_front url, fun c hlast => junk_eq_false.mpr ⟨hsettled c hlast, trimmed_back url c hlast⟩⟩

theorem Settled.trimmed_eq (hsettled : Settled url) : trimmed url = clean url := by
  rw [← Ends.rdropWhile_eq_self hsettled.solid.back, trimmed, Ends.rdropWhile_rdropWhile,
    Ends.rdropWhile_rdropWhile, clean]
  · intro c hspace
    rw [junk, hspace]
    rfl
  · intro c hslash
    rw [junk, hslash, Bool.or_true]

theorem settled_of_back {c : Char} (hlast : (trimmed url).getLast? = some c)
    (hspace : isWhitespace c = false) : Settled url := by
  intro d hd
  rw [hlast] at hd
  cases hd
  exact hspace

theorem exists_back (hnot : ¬ Settled url) :
    ∃ c, (trimmed url).getLast? = some c ∧ isWhitespace c = true := by
  unfold Settled at hnot
  push Not at hnot
  obtain ⟨c, hlast, hspace⟩ := hnot
  exact ⟨c, hlast, by simpa using hspace⟩

/-- Settling a spelling that is not settled takes a slash away. -/
theorem count_trimmed_lt (hnot : ¬ Settled url) : (trimmed url).count '/' < url.count '/' := by
  obtain ⟨c, hlast, hspace⟩ := exists_back hnot
  have hcut : trimmed url ≠ (url.dropWhile isWhitespace).rdropWhile isWhitespace := by
    intro heq
    rw [heq] at hlast
    rw [Ends.getLast?_rdropWhile c hlast] at hspace
    cases hspace
  have hinner : List.Sublist ((url.dropWhile isWhitespace).rdropWhile isWhitespace) url :=
    (List.rdropWhile_prefix _ _).sublist.trans (List.dropWhile_sublist _)
  exact Nat.lt_of_lt_of_le (Ends.count_rdropWhile_lt hcut) (hinner.count_le '/')

/-- Normalising again gives the same exactly for a settled spelling. -/
theorem respell_trimmed_iff :
    respell (trimmed (respell (trimmed url))) = respell (trimmed url) ↔ Settled url := by
  constructor
  · intro hsame
    by_contra hnot
    obtain ⟨c, hlast, hspace⟩ := exists_back hnot
    obtain ⟨d, hback, hleft⟩ := respell_back hlast hspace
    -- what is left ends with white space, so it is not settled either, and loses a slash
    have hagain : ¬ Settled (respell (trimmed url)) := by
      intro hsettled
      have hsolid := hsettled.solid.respell.back d
      rw [hsame] at hsolid
      have hspace := (junk_eq_false.mp (hsolid hback)).1
      rw [hleft] at hspace
      cases hspace
    have hcount := count_trimmed_lt hagain
    rw [← count_respell (trimmed_back (respell (trimmed url))), hsame] at hcount
    exact absurd hcount (Nat.lt_irrefl _)
  · intro hsettled
    rw [hsettled.solid.respell.trimmed_eq, respell_respell (trimmed_back url)]

end Settled

/-! ## Spellings of one server -/

/-- White space around a URL, a slash behind it, other letter case in its scheme and host,
or a legacy host for its current one. -/
inductive Respelling : List Char → List Char → Prop
  | white (front url back : List Char) (hfront : ∀ c ∈ front, isWhitespace c = true)
      (hback : ∀ c ∈ back, isWhitespace c = true) : Respelling url (front ++ url ++ back)
  | slash (url : List Char) : Respelling url (url ++ ['/'])
  | letters (scheme host scheme' host' rest : List Char) (hscheme : splitScheme scheme = none)
      (hslash : '/' ∉ host) (hhost : ∃ c ∈ host, isWhitespace c = false)
      (hrest : ∀ c ∈ rest.head?, c = '/')
      (hschemes : lower scheme = lower scheme') (hhosts : lower host = lower host') :
      Respelling (scheme ++ mark ++ (host ++ rest)) (scheme' ++ mark ++ (host' ++ rest))
  | legacy (old new : String) (rest : List Char) (halias : (old, new) ∈ legacyServerAliases)
      (hrest : ∀ c ∈ rest.head?, c = '/') : Respelling (old.toList ++ rest) (new.toList ++ rest)

/-- Spellings of one server: any number of such differences. -/
def SameServer (first second : String) : Prop :=
  Relation.EqvGen Respelling first.toList second.toList

section Spellings

variable {scheme host rest url : List Char}

theorem clean_white {front back : List Char} (hfront : ∀ c ∈ front, isWhitespace c = true)
    (hback : ∀ c ∈ back, isWhitespace c = true) : clean (front ++ url ++ back) = clean url := by
  have hjunk : ∀ c ∈ back, junk c = true := by
    intro c hmem
    rw [junk, hback c hmem]
    rfl
  rw [clean, List.append_assoc, List.dropWhile_append_of_pos hfront, List.dropWhile_append]
  split
  next hempty =>
    rw [clean, List.isEmpty_iff.mp hempty, List.dropWhile_eq_nil_iff.mpr hback]
  next => exact Ends.rdropWhile_append_of_all hjunk

theorem clean_slash : clean (url ++ ['/']) = clean url := by
  have hjunk : ∀ c ∈ ['/'], junk c = true := List.forall_mem_singleton.mpr (by decide)
  rw [clean, List.dropWhile_append]
  split
  next hempty =>
    rw [clean, List.isEmpty_iff.mp hempty]
    decide
  next => exact Ends.rdropWhile_append_of_all hjunk

/-- What is left of a scheme, a host and the rest behind them. -/
theorem clean_parts (hslash : '/' ∉ host) (hhost : ∃ c ∈ host, isWhitespace c = false)
    (scheme rest : List Char) :
    clean (scheme ++ mark ++ (host ++ rest)) =
      scheme.dropWhile isWhitespace ++ mark ++
        ((if rest.all junk then host.rdropWhile junk else host) ++
          rest.rdropWhile junk) := by
  obtain ⟨c, hmem, hspace⟩ := hhost
  have hsolid : ∃ c ∈ host, junk c = false := by
    refine ⟨c, hmem, junk_eq_false.mpr ⟨hspace, ?_⟩⟩
    rintro rfl
    exact hslash hmem
  have hfront : (scheme ++ mark ++ (host ++ rest)).dropWhile isWhitespace =
      scheme.dropWhile isWhitespace ++ mark ++ (host ++ rest) := by
    rw [List.append_assoc, List.append_assoc, List.dropWhile_append]
    split
    next hempty =>
      rw [List.isEmpty_iff.mp hempty]
      rfl
    next => rfl
  rw [clean, hfront, Ends.rdropWhile_append]
  · split
    next hall =>
      rw [List.all_eq_true] at hall
      rw [Ends.rdropWhile_append_of_all hall, List.rdropWhile_eq_nil_iff.mpr hall, List.append_nil]
    next hnot =>
      rw [Ends.rdropWhile_append]
      rw [List.all_eq_true] at hnot
      push Not at hnot
      obtain ⟨d, hd, hjunk⟩ := hnot
      exact ⟨d, hd, Bool.eq_false_iff.mpr hjunk⟩
  · obtain ⟨d, hd, hjunk⟩ := hsolid
    exact ⟨d, List.mem_append_left _ hd, hjunk⟩

/-- A clean rest is a tail. -/
theorem isTail_rdropWhile (hrest : ∀ c ∈ rest.head?, c = '/') : IsTail (rest.rdropWhile junk) := by
  cases hcut : rest.rdropWhile junk with
  | nil => exact Or.inl rfl
  | cons c path =>
      have hprefix := List.rdropWhile_prefix junk rest
      rw [hcut] at hprefix
      obtain ⟨others, rfl⟩ := hprefix
      obtain rfl := hrest c rfl
      right
      refine ⟨path, ?_, rfl⟩
      rintro rfl
      have hback := Ends.getLast?_rdropWhile (p := junk) (l := '/' :: others) '/'
      rw [show ['/'] ++ others = '/' :: others from rfl] at hcut
      rw [hcut] at hback
      exact absurd (hback rfl) (by decide)

theorem splitScheme_dropWhile (hscheme : splitScheme scheme = none) :
    splitScheme (scheme.dropWhile isWhitespace) = none := by
  induction scheme with
  | nil => exact hscheme
  | cons c scheme ih =>
      rw [List.dropWhile_cons]
      split
      next =>
        rw [splitScheme] at hscheme
        split at hscheme
        next => cases hscheme
        next => exact ih (Option.map_eq_none_iff.mp hscheme)
      next => exact hscheme

/-- A cut that does not tell letter cases apart. -/
theorem lower_dropWhile (chars : List Char) :
    lower (chars.dropWhile isWhitespace) = (lower chars).dropWhile isWhitespace := by
  rw [lower, lower, List.dropWhile_map]
  congr 2
  funext c
  exact (isWhitespace_toLower c).symm

theorem lower_rdropWhile (chars : List Char) :
    lower (chars.rdropWhile junk) = (lower chars).rdropWhile junk := by
  rw [lower, lower, Ends.rdropWhile_map]
  congr 2
  funext c
  exact (junk_toLower c).symm

/-- What a clean spelling with a host normalises to depends on the letters of its scheme
and host alone. -/
theorem respell_clean_parts (hscheme : splitScheme scheme = none) (hslash : '/' ∉ host)
    (hhost : ∃ c ∈ host, isWhitespace c = false) (hrest : ∀ c ∈ rest.head?, c = '/') :
    respell (clean (scheme ++ mark ++ (host ++ rest))) =
      currentHost ((lower scheme).dropWhile isWhitespace ++ mark ++
        (if rest.all junk then (lower host).rdropWhile junk else lower host)) ++
      rest.rdropWhile junk := by
  have hhead : IsHead (scheme.dropWhile isWhitespace)
      (if rest.all junk then host.rdropWhile junk else host) := by
    refine ⟨splitScheme_dropWhile hscheme, ?_⟩
    split
    next => exact fun hmem => hslash ((List.rdropWhile_prefix _ _).subset hmem)
    next => exact hslash
  rw [clean_parts hslash hhost, respell_parts hhead (isTail_rdropWhile hrest), lower_append,
    lower_append, lower_mark, lower_dropWhile, apply_ite lower, lower_rdropWhile]

/-- Spellings of one server normalise to the same once they are clean. -/
theorem respell_clean_eq {first second : List Char} (hrespelling : Respelling first second) :
    respell (clean first) = respell (clean second) := by
  cases hrespelling with
  | white front url back hfront hback => rw [clean_white hfront hback]
  | slash url => rw [clean_slash]
  | letters scheme host scheme' host' rest hscheme hslash hhost hrest hschemes hhosts =>
      have hscheme' : splitScheme scheme' = none := by
        rw [← splitScheme_lower, ← hschemes, splitScheme_lower]
        exact hscheme
      have hslash' : '/' ∉ host' := by
        rw [← mem_lower_iff (by decide), ← hhosts, mem_lower_iff (by decide)]
        exact hslash
      have hhost' : ∃ c ∈ host', isWhitespace c = false := by
        obtain ⟨c, hmem, hspace⟩ := hhost
        have hlower : c.toLower ∈ lower host' := by
          rw [← hhosts]
          exact List.mem_map_of_mem hmem
        obtain ⟨d, hd, hsame⟩ := List.mem_map.mp hlower
        exact ⟨d, hd, by rw [← isWhitespace_toLower, hsame, isWhitespace_toLower, hspace]⟩
      rw [respell_clean_parts hscheme hslash hhost hrest,
        respell_clean_parts hscheme' hslash' hhost' hrest, hschemes, hhosts]
  | legacy old new rest halias hrest =>
      obtain ⟨rfl, rfl⟩ := Prod.mk.inj (List.mem_singleton.mp halias)
      have hparts : ∀ host : List Char, '/' ∉ host → (∃ c ∈ host, isWhitespace c = false) →
          (lower host).rdropWhile junk = lower host →
          respell (clean ("https".toList ++ mark ++ host ++ rest)) =
            currentHost ("https".toList ++ mark ++ lower host) ++ rest.rdropWhile junk := by
        intro host hslash hhost hcut
        rw [List.append_assoc _ host,
          respell_clean_parts (by decide) hslash hhost hrest, hcut, ite_self]
        rfl
      have hold := hparts "obsink.spencerjireh.com".toList (by decide) ⟨'o', by decide, by decide⟩
        (by decide)
      have hnew := hparts "obsink-api.spencerjireh.com".toList (by decide)
        ⟨'o', by decide, by decide⟩ (by decide)
      refine hold.trans (Eq.trans ?_ hnew.symm)
      congr 1

theorem SameServer.respell_clean {first second : String} (hsame : SameServer first second) :
    respell (clean first.toList) = respell (clean second.toList) := by
  have hclean : ∀ {left right : List Char}, Relation.EqvGen Respelling left right →
      respell (clean left) = respell (clean right) := by
    intro left right hrelated
    induction hrelated with
    | rel _ _ hrespelling => exact respell_clean_eq hrespelling
    | refl => rfl
    | symm _ _ _ ih => exact ih.symm
    | trans _ _ _ _ _ ihFirst ihSecond => exact ihFirst.trans ihSecond
  exact hclean hsame

end Spellings

/-! ## Normalisation -/

theorem normalizeServerUrl_toList (url : String) :
    (normalizeServerUrl url).toList = respell (trimmed url.toList) :=
  String.toList_ofList

/-- A spelling normalises once and for all, and to what the settled spellings of its server
do, exactly when it is settled; and legacy spellings lead back in any case. -/
theorem normalizeServerUrl_canonical_iff (url : String) :
    (normalizeServerUrl (normalizeServerUrl url) = normalizeServerUrl url ↔ Settled url.toList) ∧
    (∀ other, SameServer url other → Settled other.toList →
      (normalizeServerUrl url = normalizeServerUrl other ↔ Settled url.toList)) ∧
    ∀ legacy ∈ legacyServerUrls (normalizeServerUrl url),
      normalizeServerUrl legacy = normalizeServerUrl url := by
  refine ⟨?_, ?_, ?_⟩
  · rw [← String.toList_inj, normalizeServerUrl_toList, normalizeServerUrl_toList]
    exact respell_trimmed_iff
  · intro other hsame hother
    rw [← String.toList_inj, normalizeServerUrl_toList, normalizeServerUrl_toList]
    constructor
    · intro heq
      by_contra hnot
      obtain ⟨c, hlast, hspace⟩ := exists_back hnot
      obtain ⟨d, hback, hleft⟩ := respell_back hlast hspace
      rw [heq] at hback
      have hspace := (junk_eq_false.mp (hother.solid.respell.back d hback)).1
      rw [hleft] at hspace
      cases hspace
    · intro hsettled
      rw [hsettled.trimmed_eq, hother.trimmed_eq]
      exact hsame.respell_clean
  · intro legacy hmem
    obtain ⟨⟨old, new⟩, halias, rfl⟩ := List.mem_map.mp hmem
    obtain ⟨halias, hcurrent⟩ := List.mem_filter.mp halias
    obtain ⟨rfl, rfl⟩ := Prod.mk.inj (List.mem_singleton.mp halias)
    rw [← of_decide_eq_true hcurrent]
    decide

/-- Two spellings of one server. -/
theorem example_spellings_normalize :
    normalizeServerUrl " HTTPS://Example.ObSink.test/ " =
      normalizeServerUrl "https://example.obsink.test" := by
  have hwhite := Respelling.white [' '] ("HTTPS://Example.ObSink.test".toList ++ ['/']) [' ']
    (by simp [isWhitespace]) (by simp [isWhitespace])
  have hslash := Respelling.slash "HTTPS://Example.ObSink.test".toList
  have hletters := Respelling.letters "HTTPS".toList "Example.ObSink.test".toList "https".toList
    "example.obsink.test".toList [] (by decide) (by decide) ⟨'E', by decide, by decide⟩ (by simp)
    (by decide) (by decide)
  have hsame : SameServer " HTTPS://Example.ObSink.test/ " "https://example.obsink.test" :=
    .trans _ _ _ (.symm _ _ (.rel _ _ hwhite))
      (.trans _ _ _ (.symm _ _ (.rel _ _ hslash)) (.rel _ _ hletters))
  have hfirst : Settled " HTTPS://Example.ObSink.test/ ".toList :=
    settled_of_back (c := 't') (by decide) (by decide)
  have hsecond : Settled "https://example.obsink.test".toList :=
    settled_of_back (c := 't') (by decide) (by decide)
  exact ((normalizeServerUrl_canonical_iff _).2.1 _ hsame hsecond).mpr hfirst

/-- A slash behind white space uncovers it, and it stays. -/
theorem space_before_slash_is_kept :
    (¬ ∀ url, normalizeServerUrl (normalizeServerUrl url) = normalizeServerUrl url) ∧
    ¬ ∀ url other, SameServer url other → normalizeServerUrl url = normalizeServerUrl other := by
  constructor
  · intro hall
    exact absurd (hall "https://x.dev/ /") (by decide)
  · intro hall
    have hwhite :=
      Respelling.white [] "https://x.dev/".toList [' '] (by simp) (by simp [isWhitespace])
    have hslash := Respelling.slash "https://x.dev/ ".toList
    have hsame : SameServer "https://x.dev/" "https://x.dev/ /" :=
      .trans _ _ _ (.rel _ _ hwhite) (.rel _ _ hslash)
    exact absurd (hall _ _ hsame) (by decide)

end ObSink
