import Metalanguage.Proofs.Reader.Resolving

/-!
# Proofs/Reader/Links — a written hypertext is put together again

The form of a hypertext lists its links by source and member. Each of them is resolved to a link
that is level with it (`AnchorForm.StandsFor.exists_resolve`, `Anchor.along_eq`), block by block
(`BlockForm.StandsFor.exists_resolve`), and every link of the hypertext is among them, so the set of
the resolved links is alike to its own (`exists_resolve_hypertext`). No literal shows in the form of a
hypertext, so the resolved links have none (`Hyperlink.Bare`).
-/

namespace Metalanguage

open List (Forall₂)
open Std Ordered

/-- The sentences of all members have at most so many nodes. -/
def Text.SentencesWithin (n : ℕ) (t : Text) : Prop :=
  ∀ p ∈ t.members, p.toPart.SentencesWithin n

/-- The sentences of both texts and of the way have at most so many nodes. -/
structure Hyperlink.SentencesWithin (n : ℕ) (l : Hyperlink) : Prop where
  source : l.source.SentencesWithin n
  target : l.target.SentencesWithin n
  steps : ∀ p ∈ l.anchor.steps, p.SentencesWithin n

/-- No literal shows in a link. -/
structure Hyperlink.Bare (l : Hyperlink) : Prop where
  source : l.source.display = l.source.canonical
  target : l.target.display = l.target.canonical
  steps : ∀ p ∈ l.anchor.steps, p.display = p.canonical

/-- A part that is written canonically comes back without literals. -/
theorem Matches.part_bare {p q : Part} (h : Matches (Style.part .canonical) Part.display p q) :
    q.display = q.canonical := h.written.symm.trans (Part.canonical_congr h.level)

/-- A text without literals in its members is displayed canonically. -/
theorem Text.display_eq_canonical {t : Text}
    (h : ∀ p ∈ t.members, p.toPart.display = p.toPart.canonical) : t.display = t.canonical :=
  congrArg enclose (List.map_congr_left h)

/-! ## One link -/

/-- A way from a proposition to a place, and a target, that are those of a link but for its
literals. -/
structure LeadsLike (q : Proposition) (way : Path × Text) (l : Hyperlink) (a : Anchor) : Prop where
  member : a.member = q
  path : way.1 = a.path
  steps : Alike compare l.anchor.steps a.steps
  target : compare l.target way.2 = .eq
  bare_steps : ∀ p ∈ a.descent, p.display = p.canonical
  bare_target : way.2.display = way.2.canonical

variable {c : Context} {k : Stock} (hc : c.Holds k)

include hc

/-- **One link**: its form leads from any level member to a target and on a way that are level with
its own. -/
theorem AnchorForm.StandsFor.exists_resolve {f : AnchorForm} {l : Hyperlink} (h : f.StandsFor l)
    (hl : l.Facts k) (hlimit : l.SentencesWithin c.maxNodes) {q : Proposition}
    (hq : compare l.anchor.member.toPart q.toPart = .eq) :
    ∃ way, f.resolve c q = .ok way ∧ ∃ a, LeadsLike q way l a := by
  obtain ⟨target, htarget, htarget'⟩ := h.target.exists_resolve hc hl.target hlimit.target
  obtain ⟨steps, hsteps, hmatches⟩ :=
    exists_mapM (Q := Matches (Style.part .canonical) Part.display) h.steps fun hp hf =>
      PartForm.StandsFor.exists_resolve hc hf (hl.steps _ (List.mem_cons_of_mem _ hp))
        (hlimit.steps _ (List.mem_cons_of_mem _ hp))
  have halike : Alike compare l.anchor.steps (Anchor.mk q steps).steps :=
    .cons hq (alike_of_matches hmatches)
  have hchain : (Anchor.mk q steps).steps.IsChain fun p q => p.hasChild q = true :=
    halike.isChain (r := fun p q => p.hasChild q = true) Part.hasChild_congr hl.descends
  have hpath : Path.ofSteps ((q.toPart :: steps).map .part) = .ok (Anchor.mk q steps).path := by
    refine Path.ofSteps_eq_ok_iff.2 ⟨rfl, (List.isChain_map _).2 (hchain.imp fun a b hab => ?_)⟩
    rwa [Expression.hasChild_part]
  have hbare : ∀ p ∈ steps, p.display = p.canonical := fun p hp => by
    obtain ⟨p', -, hmatch⟩ := exists_mem_of_forall₂ hmatches.flip hp
    exact hmatch.part_bare
  refine ⟨((Anchor.mk q steps).path, target), ?_, ⟨q, steps⟩, rfl, rfl, halike, htarget'.level,
    hbare, htarget'.written.symm.trans (Text.canonical_congr htarget'.level)⟩
  rw [AnchorForm.resolve, htarget]
  change (do let steps ← f.steps.mapM (PartForm.resolve c); _) = _
  rw [hsteps]
  change (do let path ← Path.ofSteps ((q.toPart :: steps).map .part); _) = _
  rw [hpath]
  rfl

/-! ## Members, source texts and hypertexts -/

theorem Context.Holds.legible : k.Legible .canonical where
  script ht := hc.accepted.valid (hc.term ht)
  body := nofun

omit hc in
/-- A member, with ways and targets like those of its links. -/
structure MemberLeads (h : Hypertext) (source : Text) (m : Proposition × List (Path × Text))
    (p : Proposition) : Prop where
  level : compare p.toPart m.1.toPart = .eq
  bare : m.1.toPart.display = m.1.toPart.canonical
  ways : Forall₂ (fun way l => ∃ a, LeadsLike m.1 way l a) m.2 (h.linksFrom source p)

variable {h : Hypertext} (hh : h.Facts k) (hlimit : ∀ l ∈ h.links, l.SentencesWithin c.maxNodes)

include hh hlimit

/-- A member comes back once, with one way for each link that starts at it. -/
theorem MemberForm.StandsFor.exists_resolve {source : Text} {f : MemberForm} {p : Proposition}
    (hf : f.StandsFor (h.links.filter fun l => compare l.source source == .eq) p)
    (hp : p.toPart.Built k) (hlimit' : p.toPart.SentencesWithin c.maxNodes) :
    ∃ m, f.resolve c = .ok m ∧ MemberLeads h source m p := by
  obtain ⟨q, hq, hmatch⟩ := hf.proposition.exists_resolve hc hp hlimit'
  -- The links start at `p`, but they are led from `q`, which is read in its place.
  obtain ⟨ways, hways, hleads⟩ := exists_mapM (f := AnchorForm.resolve c q)
    (Q := fun l way => ∃ a, LeadsLike q way l a) hf.anchors fun {a l} hl ha => by
      obtain ⟨hmem, -, hpl⟩ := Hypertext.mem_linksFrom.1 hl
      have hfacts := hh.links l hmem
      have hlevel := Proposition.level_toPart hc.legible hp
        (hfacts.steps _ List.mem_cons_self) hpl
      exact ha.exists_resolve hc hfacts (hlimit l hmem)
        (TransCmp.eq_trans (OrientedCmp.eq_symm hlevel) hmatch.level)
  refine ⟨(q, ways), ?_, hmatch.level, hmatch.part_bare, hleads.flip⟩
  rw [MemberForm.resolve, hq]
  change (do return (q, ← f.anchors.mapM (AnchorForm.resolve c q))) = _
  rw [hways]
  rfl

/-- **The links of a source text** come back member by member. -/
theorem BlockForm.StandsFor.exists_resolve {source : Text} {f : BlockForm}
    (hf : f.StandsFor h source) (hsource : source.Facts k)
    (hlimit' : source.SentencesWithin c.maxNodes) :
    ∃ links, f.resolve c = .ok links ∧
      Forall₂ (fun l l' => compare l l' = .eq ∧ l'.Bare)
        (source.members.flatMap (h.linksFrom source)) links := by
  obtain ⟨members, hmembers, hleads⟩ := exists_mapM (f := MemberForm.resolve c)
    (Q := fun p m => MemberLeads h source m p) hf fun hp hfp =>
      hfp.exists_resolve hc hh hlimit (hsource.built _ hp) (hlimit' _ hp)
  have halike : Alike compare source.members (members.map (·.1)) :=
    List.forall₂_map_right_iff.2 (hleads.imp fun _ _ hpm =>
      Proposition.compare_eq_of_toPart hpm.level)
  have hbare : ∀ m ∈ members, m.1.toPart.display = m.1.toPart.canonical := fun m hm => by
    obtain ⟨p, -, hpm⟩ := exists_mem_of_forall₂ hleads.flip hm
    exact hpm.bare
  have hways : Forall₂ (fun way l => ∃ m ∈ members, ∃ a, LeadsLike m.1 way l a)
      (members.flatMap (·.2)) (source.members.flatMap (h.linksFrom source)) :=
    forall₂_flatMap hleads.flip fun hm _ hpm => hpm.ways.imp fun _ _ hway => ⟨_, hm, hway⟩
  obtain ⟨links, hlinks, hlevel⟩ := exists_mapM
    (f := fun way : Path × Text => Hyperlink.along ⟨members.map (·.1)⟩ way.2 way.1)
    (Q := fun l l' => compare l l' = .eq ∧ l'.Bare) hways fun {way l} hl hway => by
      obtain ⟨p, -, hl⟩ := List.mem_flatMap.1 hl
      obtain ⟨-, hlsource, -⟩ := Hypertext.mem_linksFrom.1 hl
      obtain ⟨m, hm, a, hlead⟩ := hway
      -- The way starts at a member of the source that was read, so it is accepted as that of a link.
      have hreach : ∃ q ∈ members.map (·.1), compare q a.member = .eq :=
        ⟨m.1, List.mem_map_of_mem hm, by rw [hlead.member]; exact level_self _ _⟩
      refine ⟨_, by rw [hlead.path]; exact Anchor.along_eq way.2 hreach, ?_, ?_, ?_, ?_⟩
      · exact Hyperlink.compare_eq_iff.2
          ⟨TransCmp.eq_trans hlsource (Text.compare_eq_iff.2 halike), hlead.steps, hlead.target⟩
      · exact Text.display_eq_canonical (List.forall_mem_map.2 hbare)
      · exact hlead.bare_target
      · exact List.forall_mem_cons.2 ⟨by rw [hlead.member]; exact hbare m hm, hlead.bare_steps⟩
  refine ⟨links, ?_, hlevel⟩
  rw [BlockForm.resolve]
  change (do let members ← f.members.mapM (MemberForm.resolve c); _) = _
  rw [hmembers]
  change (do let source ← Text.gather (members.map Prod.fst); _) = _
  rw [hsource.gather_eq halike]
  exact hlinks

omit hc hlimit in
/-- The links from all members of all sources are the links of the hypertext. -/
theorem Hypertext.Facts.gathered {links : List Hyperlink}
    (hall : Alike compare
      (h.sources.flatMap fun source => source.members.flatMap (h.linksFrom source)) links) :
    links ≠ [] ∧ Alike compare h.links (keepLast compare links) := by
  have hback : ∀ a ∈ links, ∃ l ∈ h.links, compare a l = .eq := by
    intro a ha
    obtain ⟨l, hl, hal⟩ := exists_mem_of_forall₂ hall.symm ha
    obtain ⟨source, -, hl⟩ := List.mem_flatMap.1 hl
    obtain ⟨p, -, hl⟩ := List.mem_flatMap.1 hl
    exact ⟨l, (Hypertext.mem_linksFrom.1 hl).1, hal⟩
  have hforth : ∀ l ∈ h.links, ∃ a ∈ links, compare l a = .eq := by
    intro l hl
    obtain ⟨source, hs, p, hp, hplace⟩ := hh.exists_place hl
    exact exists_mem_of_forall₂ hall
      (List.mem_flatMap.2 ⟨source, hs, List.mem_flatMap.2 ⟨p, hp, hplace⟩⟩)
  constructor
  · obtain ⟨l, hl⟩ := List.exists_mem_of_ne_nil _ hh.ne_nil
    obtain ⟨a, ha, -⟩ := hforth l hl
    exact List.ne_nil_of_mem ha
  · have hset := keepLast_alike hforth hback
    rwa [hh.increasing.keepLast_eq] at hset

/-- **The form of a hypertext is resolved to a hypertext with the same links.** -/
theorem exists_resolve_hypertext {blocks : List BlockForm}
    (hblocks : Forall₂ (BlockForm.StandsFor h) blocks h.sources) :
    ∃ h', (ExpressionForm.hypertext blocks).resolve c = .ok (.hypertext h') ∧
      compare h h' = .eq ∧ ∀ l ∈ h'.links, l.Bare := by
  have hsource : ∀ {source}, source ∈ h.sources →
      source.Facts k ∧ source.SentencesWithin c.maxNodes := by
    intro source hsource
    obtain ⟨l, hl, rfl⟩ := Hypertext.exists_link_of_mem_sources hsource
    exact ⟨(hh.links l hl).source, (hlimit l hl).source⟩
  obtain ⟨lists, hlists, hall⟩ := exists_mapM (f := BlockForm.resolve c)
    (Q := fun source links => Forall₂ (fun l l' => compare l l' = .eq ∧ Hyperlink.Bare l')
      (source.members.flatMap (h.linksFrom source)) links) hblocks
    fun hs hf => hf.exists_resolve hc hh hlimit (hsource hs).1 (hsource hs).2
  have hflat : Forall₂ (fun l l' => compare l l' = .eq ∧ Hyperlink.Bare l')
      (h.sources.flatMap fun source => source.members.flatMap (h.linksFrom source))
      lists.flatten := by
    rw [← List.flatMap_id]
    exact forall₂_flatMap hall fun _ _ hlinks => hlinks
  obtain ⟨hne, hset⟩ := hh.gathered (hflat.imp fun _ _ hl => hl.1)
  have hbare : ∀ l ∈ keepLast compare lists.flatten, l.Bare := fun l hl => by
    obtain ⟨_, -, -, hbare⟩ := exists_mem_of_forall₂ hflat.flip (mem_of_mem_keepLast hl)
    exact hbare
  refine ⟨⟨keepLast compare lists.flatten⟩, ?_, Hypertext.compare_eq_iff.2 hset, hbare⟩
  rw [ExpressionForm.resolve]
  change (do let links ← blocks.mapM (BlockForm.resolve c); _) = _
  rw [hlists]
  change (do return Expression.hypertext (← Hypertext.ofLinks lists.flatten)) = _
  rw [Hypertext.ofLinks_eq_ok_iff.2 ⟨hne, rfl⟩]
  rfl

end Metalanguage
