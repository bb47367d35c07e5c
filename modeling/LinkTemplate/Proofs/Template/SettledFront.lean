import LinkTemplate.Proofs.Template.Expansion
import LinkTemplate.Proofs.Uri.Reading

namespace LinkTemplate

open Percent (encode)
open Text (cut)
open Uri (isPathChar isScheme isSchemeChar isUriChar)

namespace Uri

variable {scheme authority tail : Text}

/-- The components of a text with a scheme and an authority, where `tail` follows the authority. -/
def Components.ofTail (scheme authority tail : Text) : Components :=
  let part := (cut '#' tail).1
  .hierarchical scheme (some authority) (cut '?' part).1 (cut '?' part).2 (cut '#' tail).2

private theorem not_mem_of_cut_cut {c d : Char} {s : Text} :
    c ∉ (cut d (cut c s).1).1 ∧ ∀ t, (cut d (cut c s).1).2 = some t → c ∉ t := by
  have h := Text.not_mem_cut_fst c s
  rw [← Text.cut_append_lead d (cut c s).1] at h
  exact Text.not_mem_of_not_mem_append_lead h

namespace Components

theorem text_ofTail : (ofTail scheme authority tail).text =
    scheme ++ "://".toList ++ authority ++ tail := by
  have htail : (cut '?' (cut '#' tail).1).1 ++ Text.lead '?' (cut '?' (cut '#' tail).1).2 ++
      Text.lead '#' (cut '#' tail).2 = tail := by
    rw [Text.cut_append_lead, Text.cut_append_lead]
  calc (ofTail scheme authority tail).text
    _ = scheme ++ "://".toList ++ authority ++ ((cut '?' (cut '#' tail).1).1 ++
          Text.lead '?' (cut '?' (cut '#' tail).1).2 ++ Text.lead '#' (cut '#' tail).2) := by
        simp only [ofTail, text, scheme?, schemeSpecificPart, Components.fragment?,
          List.append_assoc, List.cons_append]
        rfl
    _ = scheme ++ "://".toList ++ authority ++ tail := by rw [htail]

theorem wellFormed_ofTail (hs : isScheme scheme = true)
    (ha : '/' ∉ authority ∧ '?' ∉ authority ∧ '#' ∉ authority) (htail : tail.head? = some '/') :
    (ofTail scheme authority tail).WellFormed := by
  obtain ⟨rest, rfl⟩ := List.head?_eq_some_iff.mp htail
  have hpath : (cut '?' (cut '#' ('/' :: rest)).1).1.head? = some '/' := by simp [cut]
  refine .withAuthority hs ha (.inr hpath) ⟨Text.not_mem_cut_fst _ _, not_mem_of_cut_cut.1⟩
    not_mem_of_cut_cut.2 ?_
  rintro ⟨-, hnil, -⟩
  rw [hnil] at hpath
  cases hpath

end Components

/-- The front of a text up to the first slash of its path settles scheme and authority. If the first
number sign comes after a question mark, the path is settled too, and the query with it if the front
holds that number sign. -/
theorem exists_parse_of_front (hs : isScheme scheme = true)
    (ha : '/' ∉ authority ∧ '?' ∉ authority ∧ '#' ∉ authority) (htail : tail.head? = some '/')
    (more : Text) :
    ∃ u, parse (scheme ++ "://".toList ++ authority ++ (tail ++ more)) = .ok u ∧
      u.scheme? = some scheme ∧ u.authority? = some (encode isUriChar authority) ∧
      ('?' ∈ (cut '#' tail).1 →
        u.path? = some (encode isPathChar (cut '?' (cut '#' tail).1).1)) ∧
      ('#' ∈ tail → u.path? = some (encode isPathChar (cut '?' (cut '#' tail).1).1) ∧
        u.query? = (cut '?' (cut '#' tail).1).2.map (encode isUriChar)) := by
  have hhead : (tail ++ more).head? = some '/' := by simp [htail]
  have hwell := Components.wellFormed_ofTail hs ha hhead
  obtain ⟨u, hparse, hu⟩ := exists_parse (Components.fault?_text hwell)
  rw [Components.ofText_text hwell] at hu
  rw [Components.text_ofTail] at hparse
  refine ⟨u, hparse, ?_, ?_, ?_, ?_⟩
  · rw [scheme?, hu, Components.scheme?_encode]
    exact congrArg some (encode_scheme hs)
  · rw [authority?, hu, Components.authority?_encode]
    rfl
  · intro hmark
    obtain ⟨rest, hrest⟩ := Text.cut_fst_append_prefix '#' tail more
    rw [path?, hu, Components.path?_encode, ← Text.cut_fst_append_of_mem hmark rest, hrest]
    rfl
  · intro hsign
    have hpart := Text.cut_fst_append_of_mem hsign more
    constructor
    · rw [path?, hu, Components.path?_encode, ← hpart]
      rfl
    · rw [query?, hu, Components.query?_encode, ← hpart]
      rfl

end Uri

namespace Template

variable {t : Template} {source : Source} {first : Text}

private theorem exists_expand_eq_parse (hfirst : t.layout.literals.head? = some first)
    (h : source.Supplies t) : ∃ more, t.expand source = Uri.parse (first ++ more) := by
  obtain ⟨values, hvalues⟩ := exists_values h
  have hexpand : t.expand source = Uri.parse (t.layout.substitute values) := by
    rw [expand, substitute, hvalues]
    rfl
  have hl := length_values hvalues
  rw [hexpand, Layout.substitute_eq]
  cases hslots : t.layout.slots with
  | nil =>
    have hlast : t.layout.last = first := by simpa [Layout.literals, hslots] using hfirst
    exact ⟨[], by simp [hlast]⟩
  | cons slot slots =>
    have hliteral : slot.literal = first := by simpa [Layout.literals, hslots] using hfirst
    cases values with
    | nil => simp [hslots] at hl
    | cons value values =>
      rw [List.map_cons, Pattern.weave_cons, hliteral, List.append_assoc]
      exact ⟨_, rfl⟩

section

variable {scheme authority : Text}

private theorem not_mem_front {c : Char} (hs : isScheme scheme = true) (ha : c ∉ authority)
    (hc : isSchemeChar c = false) (hd : c ∉ "://".toList) :
    c ∉ scheme ++ "://".toList ++ authority := by
  have hscheme : c ∉ scheme := fun hm => by simp [Uri.isSchemeChar_of_mem hs hm] at hc
  simp only [List.mem_append, not_or]
  exact ⟨⟨hscheme, hd⟩, ha⟩

private theorem exists_expand (hfirst : t.layout.literals.head? = some first) {rest : Text}
    (hfront : first = scheme ++ "://".toList ++ authority ++ '/' :: rest)
    (hs : isScheme scheme = true) (ha : '/' ∉ authority ∧ '?' ∉ authority ∧ '#' ∉ authority)
    (h : source.Supplies t) :
    ∃ u, t.expand source = .ok u ∧ u.scheme? = some scheme ∧
      u.authority? = some (encode isUriChar authority) ∧
      ('?' ∈ (cut '#' first).1 →
        u.path? = some (encode isPathChar (cut '?' (cut '#' ('/' :: rest)).1).1)) ∧
      ('#' ∈ first →
        u.path? = some (encode isPathChar (cut '?' (cut '#' ('/' :: rest)).1).1) ∧
          u.query? = (cut '?' (cut '#' ('/' :: rest)).1).2.map (encode isUriChar)) := by
  obtain ⟨more, hexpand⟩ := exists_expand_eq_parse hfirst h
  obtain ⟨u, hparse, hscheme, hauthority, hpath, hquery⟩ :=
    Uri.exists_parse_of_front hs ha (List.head?_cons (a := '/') (l := rest)) more
  rw [hexpand, hfront, List.append_assoc]
  have hmark := not_mem_front hs ha.2.1 (c := '?') (by decide) (by decide)
  have hsign := not_mem_front hs ha.2.2 (c := '#') (by decide) (by decide)
  refine ⟨u, hparse, hscheme, hauthority, ?_, ?_⟩
  · intro h
    rw [Text.cut_fst_append_of_not_mem hsign] at h
    exact hpath ((List.mem_append.mp h).resolve_left hmark)
  · intro h
    exact hquery ((List.mem_append.mp h).resolve_left hsign)

/-- Where the first literal text starts with a scheme, an authority and a slash, every two sources
with all values give URIs, both with that scheme and authority. They have the same path if the first
literal text has a question mark before any number sign, and the same path and query if it has a
number sign. -/
theorem expand_settled {source₁ source₂ : Source}
    (hfirst : t.layout.literals.head? = some first)
    (hfront : scheme ++ "://".toList ++ authority ++ ['/'] <+: first)
    (hs : isScheme scheme = true) (ha : '/' ∉ authority ∧ '?' ∉ authority ∧ '#' ∉ authority)
    (h₁ : source₁.Supplies t) (h₂ : source₂.Supplies t) :
    ∃ u v, t.expand source₁ = .ok u ∧ t.expand source₂ = .ok v ∧
      u.scheme? = some scheme ∧ v.scheme? = some scheme ∧
      u.authority? = some (encode isUriChar authority) ∧
      v.authority? = some (encode isUriChar authority) ∧
      ('?' ∈ (cut '#' first).1 → u.path? = v.path?) ∧
      ('#' ∈ first → u.path? = v.path? ∧ u.query? = v.query?) := by
  obtain ⟨rest, hrest⟩ := hfront
  have hfront : first = scheme ++ "://".toList ++ authority ++ '/' :: rest := by simp [← hrest]
  obtain ⟨u, hu, hscheme₁, hauthority₁, hpath₁, hquery₁⟩ := exists_expand hfirst hfront hs ha h₁
  obtain ⟨v, hv, hscheme₂, hauthority₂, hpath₂, hquery₂⟩ := exists_expand hfirst hfront hs ha h₂
  refine ⟨u, v, hu, hv, hscheme₁, hscheme₂, hauthority₁, hauthority₂, ?_, ?_⟩
  · intro hmark
    rw [hpath₁ hmark, hpath₂ hmark]
  · intro hsign
    rw [(hquery₁ hsign).1, (hquery₂ hsign).1, (hquery₁ hsign).2, (hquery₂ hsign).2]
    exact ⟨rfl, rfl⟩

end

/-- Delimiters in the values all go into the fragment. -/
theorem expand_settled_delimiters : ∃ t u v, ofText "s+1://h:[é]/p?q#{x}{y}".toList = .ok t ∧
    t.expand (Bindings.positional [.text "://@".toList, .text "/?#%".toList]).source = .ok u ∧
    t.expand (.byName fun _ => some []) = .ok v ∧
      u.scheme? = some "s+1".toList ∧ v.scheme? = some "s+1".toList ∧
      u.authority? = some "h:[%C3%A9]".toList ∧ v.authority? = some "h:[%C3%A9]".toList ∧
      u.path? = v.path? ∧ u.query? = v.query? := by
  let t : Template := ⟨Layout.scan "s+1://h:[é]/p?q#{x}{y}".toList, by decide, by decide, by decide⟩
  have h₁ : (Bindings.positional [.text "://@".toList, .text "/?#%".toList]).source.Supplies t := by
    refine ⟨fun n hn => (Option.some.inj hn).symm, ?_⟩
    intro i name hname
    match i with
    | 0 => exact ⟨_, rfl⟩
    | 1 => exact ⟨_, rfl⟩
    | i + 2 => cases hname
  have h₂ : (Source.byName fun _ => some []).Supplies t :=
    ⟨fun n hn => absurd hn.symm (Option.some_ne_none n), fun _ _ _ => ⟨_, rfl⟩⟩
  obtain ⟨u, v, hu, hv, hscheme₁, hscheme₂, hauthority₁, hauthority₂, -, hsign⟩ :=
    @expand_settled t "s+1://h:[é]/p?q#".toList "s+1".toList "h:[é]".toList _ _ rfl (by decide)
      (by decide) (by decide) h₁ h₂
  exact ⟨t, u, v, rfl, hu, hv, hscheme₁, hscheme₂, hauthority₁, hauthority₂, hsign (by decide)⟩

end Template

end LinkTemplate
