import Sigil.Proofs.Draft.Forms

/-!
The code of a compiled program: the drafts of its body and of its functions, linked with the
addresses at which the functions start.
-/
namespace Sigil

open Draft (fixed)

/-- Linking sets the targets of the calls; all of them have to be known. -/
theorem Linker.linkSites_eq_ok {l : Linker} {code code' : Code} {before : List Instruction}
    {drafts : List Draft} (hc : code.instructions.toList = before ++ drafts.map Draft.unlinked)
    (h : l.linkSites (Draft.sites before.length drafts) code = .ok () code') :
    code'.instructions.toList =
      before ++ drafts.map (Draft.link fun name => (l.address? name).getD 0) ∧
    code'.labels = code.labels ∧ ∀ name, Draft.call name ∈ drafts → (l.address? name).isSome := by
  induction drafts generalizing before code with
  | nil =>
    cases h
    exact ⟨hc, rfl, nofun⟩
  | cons d drafts ih =>
    cases d with
    | fixed i =>
      have h' : l.linkSites (Draft.sites (before ++ [i]).length drafts) code = .ok () code' := by
        rwa [List.length_append, List.length_singleton]
      have hc' : code.instructions.toList = (before ++ [i]) ++ drafts.map Draft.unlinked := by
        simpa [Draft.unlinked, Draft.link] using hc
      obtain ⟨hcode, hlabels, hknown⟩ := ih hc' h'
      exact ⟨by simpa [Draft.link] using hcode, hlabels, by simpa using hknown⟩
    | call name =>
      simp only [Draft.sites, linkSites] at h
      cases hname : l.address? name with
      | none =>
        simp only [hname] at h
        cases h
      | some target =>
        simp only [hname, bind_eq_ok] at h
        obtain ⟨_, _, hg, h⟩ := h
        cases hg
        have hget : code.get? before.length = some (.call 0) := by
          simp [Code.get?, ← Array.getElem?_toList, hc, Draft.unlinked, Draft.link]
        have hpatch := Code.patch?_eq_some.2 ⟨_, .call target, hget, rfl, rfl⟩
        simp only [hpatch, bind_eq_ok] at h
        obtain ⟨_, _, hset, h⟩ := h
        cases hset
        have hlen : before.length + 1 = (before ++ [Instruction.call target]).length := by simp
        rw [hlen] at h
        obtain ⟨hcode, hlabels, hknown⟩ := ih (by simp [hc]) h
        exact ⟨by simpa [Draft.link, hname] using hcode, hlabels, by simpa [hname] using hknown⟩

theorem Symbols.register_eq (name : String) (arity : Nat) (y : Symbols) :
    register name arity y =
      if (y.arity? name).isSome then .error (.functionRedeclared name) y
      else .ok (y.lastId + 1)
        { y with functions := (name, arity) :: y.functions, lastId := y.lastId + 1 } := by
  show (if (y.arity? name).isSome then throw _ else _ : Update Nat) y = _
  split <;> rfl

theorem Function.register_eq (f : Function) (s : Lowering) :
    f.register s =
      if (s.symbols.arity? f.name).isSome then .error (.functionRedeclared f.name) s
      else .ok () { s with symbols :=
        { s.symbols with
          functions := (f.name, f.parameters.length) :: s.symbols.functions
          lastId := s.symbols.lastId + 1 } } := by
  have hregister := Symbols.register_eq f.name f.parameters.length s.symbols
  by_cases hname : (s.symbols.arity? f.name).isSome
  · rw [if_pos hname] at hregister ⊢
    refine bind_of_error ?_
    simp only [Lowering.onSymbols, hregister]
  · rw [if_neg hname] at hregister ⊢
    refine bind_of_ok (a := s.symbols.lastId + 1) ?_
    simp only [Lowering.onSymbols, hregister]

namespace Lowering

variable {s t : Lowering}

theorem register_eq_ok {f : Function} (h : f.register s = .ok () t) :
    s.symbols.arity? f.name = none ∧
      t = { s with symbols :=
        { s.symbols with
          functions := (f.name, f.parameters.length) :: s.symbols.functions
          lastId := s.symbols.lastId + 1 } } := by
  rw [Function.register_eq] at h
  by_cases hname : (s.symbols.arity? f.name).isSome
  · rw [if_pos hname] at h
    cases h
  · rw [if_neg hname] at h
    cases h
    exact ⟨Option.not_isSome_iff_eq_none.1 hname, rfl⟩

structure Places (s : Lowering) (entries : List (String × Nat)) (code : List Draft) (t : Lowering) :
    Prop where
  instructions : t.code.instructions.toList = s.code.instructions.toList ++ code.map Draft.unlinked
  labels : t.code.labels = s.code.labels ++ entries.map Prod.swap
  sites : t.linker.sites = s.linker.sites ++ Draft.sites s.code.size code
  addresses : t.linker.addresses = entries.reverse ++ s.linker.addresses
  functions : t.symbols.functions = s.symbols.functions
  scopes : t.symbols.scopes = s.symbols.scopes
  offset : s.offset = 0 → t.offset = 0
  keyed : t.Keyed
  layout : t.layout.grounded = s.layout.grounded.behind code

theorem Places.refl (hs : s.Keyed) : Places s [] [] s :=
  ⟨by simp, by simp, by simp [Draft.sites], rfl, rfl, rfl, id, hs, rfl⟩

theorem Places.trans {u : Lowering} {x y : List (String × Nat)} {a b : List Draft}
    (h : Places s x a t) (g : Places t y b u) : Places s (x ++ y) (a ++ b) u where
  instructions := by rw [g.instructions, h.instructions, List.map_append, List.append_assoc]
  labels := by rw [g.labels, h.labels, List.map_append, List.append_assoc]
  sites := by
    have hsize : t.code.size = s.code.size + a.length := congrArg Layout.start h.layout
    rw [g.sites, h.sites, hsize, Draft.sites_append, List.append_assoc]
  addresses := by rw [g.addresses, h.addresses, List.reverse_append, List.append_assoc]
  functions := g.functions.trans h.functions
  scopes := g.scopes.trans h.scopes
  offset := fun hs => g.offset (h.offset hs)
  keyed := g.keyed
  layout := by rw [g.layout, h.layout, Layout.behind_append]

theorem function_eq_ok {f : Function} (hs : s.Keyed) (h : f.lower s = .ok () t) :
    ∃ code, f.block s.layout = some code ∧ Places s [(f.name, s.code.size)] code t := by
  simp only [Function.lower, bind_eq_ok] at h
  obtain ⟨_, _, h1, _, s1, h2, ids, s2, h3, _, s3, h4, _, s4, h5, _, s5, h6, h7⟩ := h
  cases h1
  cases h2
  have hs1 : Keyed { s with
      linker := s.linker.bind f.name s.code.size, code := s.code.label s.code.size f.name,
      offset := 0 } := ⟨hs.slots, hs.scopes⟩
  obtain ⟨hn, rfl⟩ := pushScope_bindSlots h3 h4
  obtain ⟨code, hcode, g1⟩ := lowers_expr f.body _ _ (hs1.bound _ _) h5
  have g := (g1.unbound h6).trans (emit_eq_ok h7 rfl)
  rw [bound_layout hs1 hn] at hcode
  refine ⟨code ++ [fixed (.result .accumulator)], ?_, ?_⟩
  · have hcode' : f.body.block (s.layout.grounded.bind f.parameters
        (parameterSlots f.parameters.length)) = some code := hcode
    simp [Function.block, hn, guard, hcode']
  · exact {
      instructions := g.instructions
      labels := g.labels
      sites := g.sites
      addresses := g.addresses
      functions := g.functions
      scopes := g.scopes
      offset := fun _ => g.offset
      keyed := g.keyed hs1
      layout := by
        rw [g.layout hs1]
        rfl }

theorem functions_eq_ok {fs : List Function} (hs : s.Keyed)
    (h : fs.forM Function.lower s = .ok () t) :
    ∃ entries code, Function.blocks fs s.layout = some (entries, code) ∧
      Places s entries code t := by
  induction fs generalizing s with
  | nil =>
    cases h
    exact ⟨[], [], rfl, .refl hs⟩
  | cons f fs ih =>
    obtain ⟨_, s1, h1, h2⟩ := bind_eq_ok.1 h
    obtain ⟨code, hcode, g1⟩ := function_eq_ok hs h1
    obtain ⟨entries, rest, hrest, g2⟩ := ih g1.keyed h2
    rw [← Function.blocks_grounded, g1.layout] at hrest
    refine ⟨(f.name, s.code.size) :: entries, code ++ rest, ?_, g1.trans g2⟩
    simp [Function.blocks, hcode, hrest]

theorem link_eq_ok (h : link s = .ok () t) :
    s.linker.linkSites s.linker.sites s.code = .ok () t.code ∧
      t = { s with code := t.code, linker := { s.linker with sites := [] } } := by
  unfold link Linker.link at h
  cases hl : s.linker.linkSites s.linker.sites s.code with
  | error e code =>
    simp only [hl] at h
    cases h
  | ok _ code =>
    simp only [hl] at h
    cases h
    exact ⟨rfl, rfl⟩

theorem register_all_eq_ok {fs : List Function} (h : fs.forM Function.register s = .ok () t) :
    (fs.map Function.name).Nodup ∧ (∀ f ∈ fs, s.symbols.arity? f.name = none) ∧
      ∃ lastId, s.symbols.lastId ≤ lastId ∧ t = { s with
        symbols.functions :=
          (fs.map fun f => (f.name, f.parameters.length)).reverse ++ s.symbols.functions
        symbols.lastId := lastId } := by
  induction fs generalizing s with
  | nil =>
    cases h
    exact ⟨.nil, by simp, _, Nat.le_refl _, rfl⟩
  | cons f fs ih =>
    obtain ⟨_, s1, h1, h2⟩ := bind_eq_ok.1 h
    obtain ⟨hname, rfl⟩ := register_eq_ok h1
    obtain ⟨hn, hfree, lastId, hlast, rfl⟩ := ih h2
    have hne : ∀ g ∈ fs, (g.name == f.name) = false ∧ s.symbols.arity? g.name = none := by
      intro g hg
      have := hfree g hg
      simp only [Symbols.arity?, List.lookup_cons] at this
      cases hgf : g.name == f.name with
      | true => simp [hgf] at this
      | false =>
        simp only [hgf] at this
        exact ⟨rfl, this⟩
    refine ⟨List.nodup_cons.2 ⟨?_, hn⟩, ?_, lastId, Nat.le_of_succ_le hlast, by simp⟩
    · intro hf
      obtain ⟨g, hg, hgf⟩ := List.mem_map.1 hf
      have := (hne g hg).1
      simp [hgf] at this
    · intro g hg
      rcases List.mem_cons.1 hg with rfl | hg
      · exact hname
      · exact (hne g hg).2

structure Idle (s : Lowering) : Prop where
  code : s.code = .empty
  sites : s.linker.sites = []
  scopes : s.symbols.scopes = []
  offset : s.offset = 0
  keyed : s.Keyed

theorem idle_start : start.Idle := ⟨rfl, rfl, rfl, rfl, nofun, nofun⟩

end Lowering

namespace Program

def arity? (p : Program) (name : String) : Option Nat :=
  (p.functions.find? (·.name = name)).map (·.parameters.length)

def layout (p : Program) : Layout := ⟨fun _ => none, p.arity?, 0, 0, 0⟩

def layoutIn (p : Program) (s : Lowering) : Layout :=
  { p.layout with
    arity? := fun name => (p.arity? name).or (s.symbols.arity? name)
    cell := s.nextHeap }

theorem layoutIn_start (p : Program) : p.layoutIn .start = p.layout := by
  have h : ∀ name, Lowering.start.symbols.arity? name = none := fun _ => rfl
  simp only [layoutIn, h, Option.or_none]
  rfl

theorem lookup_arities {p : Program} (hn : (p.functions.map Function.name).Nodup) (name : String) :
    List.lookup name (p.functions.map fun f => (f.name, f.parameters.length)).reverse =
      p.arity? name := by
  have hkeys : ((p.functions.map fun f => (f.name, f.parameters.length)).map Prod.fst).Nodup := by
    rwa [List.map_map]
  rw [lookup_reverse hkeys]
  unfold arity?
  cases hf : p.functions.find? (·.name = name) with
  | none =>
    refine List.lookup_eq_none_iff.2 fun e he => ?_
    obtain ⟨f, hmem, rfl⟩ := List.mem_map.1 he
    have := List.find?_eq_none.1 hf f hmem
    simp only [decide_eq_true_eq] at this
    simp only [bne_iff_ne, ne_eq]
    exact fun h => this h.symm
  | some f =>
    obtain rfl : f.name = name := by simpa using List.find?_some hf
    exact lookup_of_mem hkeys (List.mem_map_of_mem (List.mem_of_find?_eq_some hf))

def registered (p : Program) (s : Lowering) (lastId : Nat) : Lowering :=
  { s with
    symbols.functions :=
      (p.functions.map fun f => (f.name, f.parameters.length)).reverse ++ s.symbols.functions
    symbols.lastId := lastId }

theorem keyed_registered (p : Program) {s : Lowering} {lastId : Nat} (hs : s.Keyed)
    (hlast : s.symbols.lastId ≤ lastId) : (p.registered s lastId).Keyed where
  slots := fun e he => Nat.le_trans (hs.slots e he) hlast
  scopes := fun scope hscope e he => Nat.le_trans (hs.scopes scope hscope e he) hlast

theorem layout_registered {p : Program} {s : Lowering} (hn : (p.functions.map Function.name).Nodup)
    (hs : s.Idle) (lastId : Nat) : (p.registered s lastId).layout = p.layoutIn s := by
  have harity : (p.registered s lastId).symbols.arity? = (p.layoutIn s).arity? := by
    funext name
    show List.lookup name (_ ++ s.symbols.functions) = _
    rw [List.lookup_append, lookup_arities hn name]
    rfl
  have hslot : (p.registered s lastId).slot? = fun _ => none := by
    funext name
    simp only [Lowering.slot?, Symbols.binding?, registered, hs.scopes, List.findSome?_nil,
      Option.bind_none]
  have hoffset : (p.registered s lastId).offset = 0 := hs.offset
  have hsize : (p.registered s lastId).code.size = 0 := by
    show s.code.size = 0
    rw [hs.code]
    rfl
  simp only [Lowering.layout, hslot, harity, hoffset, hsize]
  rfl

def draftAt (p : Program) (L : Layout) : Option (List (String × Nat) × List Draft) := do
  let body ← p.body.block L
  let main := body ++ [fixed (.exit .accumulator)]
  let (entries, rest) ← Function.blocks p.functions (L.behind main)
  return (entries, main ++ rest)

def draft (p : Program) : Option (List (String × Nat) × List Draft) := p.draftAt p.layout

theorem draftAt_eq_some {p : Program} {L : Layout} {entries : List (String × Nat)}
    {code : List Draft} : p.draftAt L = some (entries, code) ↔ ∃ b rest, p.body.block L = some b ∧
      Function.blocks p.functions (L.behind (b ++ [fixed (.exit .accumulator)])) =
        some (entries, rest) ∧ code = b ++ [fixed (.exit .accumulator)] ++ rest := by
  simp only [draftAt, Option.bind_eq_bind, Option.bind_eq_some_iff, Option.pure_def,
    Option.some.injEq, Prod.mk.injEq, Prod.exists]
  constructor
  · rintro ⟨b, hb, _, rest, hrest, rfl, rfl⟩
    exact ⟨b, rest, hb, hrest, rfl⟩
  · rintro ⟨b, rest, hb, hrest, rfl⟩
    exact ⟨b, hb, entries, rest, hrest, rfl, rfl⟩

theorem draft_eq_some {p : Program} {entries : List (String × Nat)} {code : List Draft} :
    p.draft = some (entries, code) ↔ ∃ b rest, p.body.block p.layout = some b ∧
      Function.blocks p.functions (p.layout.behind (b ++ [fixed (.exit .accumulator)])) =
        some (entries, rest) ∧ code = b ++ [fixed (.exit .accumulator)] ++ rest :=
  draftAt_eq_some

structure Drafted (p : Program) (s : Lowering) (entries : List (String × Nat)) (code : List Draft)
    (t : Lowering) : Prop where
  names : (p.functions.map Function.name).Nodup
  draft : p.draftAt (p.layoutIn s) = some (entries, code)
  instructions : t.code.instructions.toList = code.map Draft.unlinked
  labels : t.code.labels = entries.map Prod.swap
  sites : t.linker.sites = Draft.sites 0 code
  addresses : t.linker.addresses = entries.reverse ++ s.linker.addresses
  functions : t.symbols.functions =
    (p.functions.map fun f => (f.name, f.parameters.length)).reverse ++ s.symbols.functions
  scopes : t.symbols.scopes = []
  offset : t.offset = 0
  keyed : t.Keyed

theorem Drafted.draft_eq {p : Program} {entries : List (String × Nat)} {code : List Draft}
    {t : Lowering} (h : p.Drafted .start entries code t) : p.draft = some (entries, code) := by
  rw [Program.draft, ← layoutIn_start]
  exact h.draft

theorem main_of_lower {p : Program} {s s1 s2 s3 : Lowering} (hs : s.Idle)
    (h1 : p.functions.forM Function.register s = .ok () s1) (h2 : p.body.lower s1 = .ok () s2)
    (h3 : Lowering.emit (.exit .accumulator) s2 = .ok () s3) :
    (p.functions.map Function.name).Nodup ∧ ∃ b, p.body.block (p.layoutIn s) = some b ∧ s3.Keyed ∧
      s3.layout = (p.layoutIn s).behind (b ++ [fixed (.exit .accumulator)]) ∧
      ∃ lastId, Lowering.Grows (p.registered s lastId) 0 (b ++ [fixed (.exit .accumulator)]) s3 := by
  obtain ⟨hn, -, lastId, hlast, rfl⟩ := Lowering.register_all_eq_ok h1
  have hs1 := p.keyed_registered hs.keyed hlast
  obtain ⟨b, hb, g2⟩ := Lowering.lowers_expr p.body (p.registered s lastId) _ hs1 h2
  have g3 : Lowering.Grows _ 0 (b ++ [fixed (.exit .accumulator)]) s3 :=
    (g2.trans (Lowering.emit_eq_ok h3 rfl)).cast (by omega) rfl
  rw [layout_registered hn hs] at hb
  refine ⟨hn, b, hb, g3.keyed hs1, ?_, lastId, g3⟩
  rw [g3.layout hs1, Layout.raised_zero, layout_registered hn hs]

theorem drafted_of_lower {p : Program} {s s1 s2 s3 s4 : Lowering} (hs : s.Idle)
    (h1 : p.functions.forM Function.register s = .ok () s1) (h2 : p.body.lower s1 = .ok () s2)
    (h3 : Lowering.emit (.exit .accumulator) s2 = .ok () s3)
    (h4 : p.functions.forM Function.lower s3 = .ok () s4) :
    ∃ entries code, p.Drafted s entries code s4 := by
  obtain ⟨hn, b, hb, hs3, hlayout, lastId, g3⟩ := main_of_lower hs h1 h2 h3
  obtain ⟨entries, fs, hfs, g4⟩ := Lowering.functions_eq_ok hs3 h4
  have hempty : (p.registered s lastId).code = .empty := hs.code
  have hnosites : (p.registered s lastId).linker.sites = [] := hs.sites
  have hstart : s3.code.size = 0 + (b ++ [fixed (.exit .accumulator)]).length := by
    rw [g3.size, hempty]
    rfl
  rw [hlayout] at hfs
  exact ⟨entries, b ++ [fixed (.exit .accumulator)] ++ fs, {
    names := hn
    draft := draftAt_eq_some.2 ⟨b, fs, hb, hfs, rfl⟩
    instructions := by
      rw [g4.instructions, g3.instructions, hempty]
      simp [Code.empty]
    labels := by
      rw [g4.labels, g3.labels, hempty]
      rfl
    sites := by
      rw [g4.sites, g3.sites, hstart, Draft.sites_append _ _ fs, hnosites, hempty]
      rfl
    addresses := by
      rw [g4.addresses, g3.addresses]
      rfl
    functions := by
      rw [g4.functions, g3.functions]
      rfl
    scopes := by
      rw [g4.scopes, g3.scopes]
      exact hs.scopes
    offset := g4.offset (by rw [g3.offset, Int.add_zero]; exact hs.offset)
    keyed := g4.keyed }⟩

structure Emitted (p : Program) (s : Lowering) (entries : List (String × Nat)) (drafts : List Draft)
    (code : Code) (t : Lowering) : Prop where
  names : (p.functions.map Function.name).Nodup
  fresh : ∀ f ∈ p.functions, s.symbols.arity? f.name = none
  draft : p.draftAt (p.layoutIn s) = some (entries, drafts)
  known : ∀ name, Draft.call name ∈ drafts → (t.linker.address? name).isSome
  instructions : code.instructions.toList =
    drafts.map (Draft.link fun name => (t.linker.address? name).getD 0)
  labels : code.labels = entries.map Prod.swap
  addresses : t.linker.addresses = entries.reverse ++ s.linker.addresses
  functions : t.symbols.functions =
    (p.functions.map fun f => (f.name, f.parameters.length)).reverse ++ s.symbols.functions
  idle : t.Idle

theorem Emitted.draft_eq {p : Program} {entries : List (String × Nat)} {drafts : List Draft}
    {code : Code} {t : Lowering} (h : p.Emitted .start entries drafts code t) :
    p.draft = some (entries, drafts) := by
  rw [Program.draft, ← layoutIn_start]
  exact h.draft

theorem emitted_of_lower {p : Program} {s t : Lowering} {code : Code} (hs : s.Idle)
    (h : p.lower s = .ok code t) : ∃ entries drafts, p.Emitted s entries drafts code t := by
  simp only [lower, bind_eq_ok] at h
  obtain ⟨_, s1, h1, _, s2, h2, _, s3, h3, _, s4, h4, _, s5, h5, h6⟩ := h
  obtain ⟨entries, drafts, g⟩ := drafted_of_lower hs h1 h2 h3 h4
  have hdrafts : s4.code.instructions.toList = [] ++ drafts.map Draft.unlinked := g.instructions
  obtain ⟨hlink, hs5⟩ := Lowering.link_eq_ok h5
  rw [g.sites] at hlink
  obtain ⟨hcode, hlabels, hknown⟩ := Linker.linkSites_eq_ok hdrafts hlink
  cases h6
  rw [hs5]
  exact ⟨entries, drafts, {
    names := g.names
    fresh := (Lowering.register_all_eq_ok h1).2.1
    draft := g.draft
    known := hknown
    instructions := hcode
    labels := hlabels.trans g.labels
    addresses := g.addresses
    functions := g.functions
    idle := ⟨rfl, rfl, g.scopes, g.offset, g.keyed.slots, g.keyed.scopes⟩ }⟩

theorem emitted_of_compile {p : Program} {code : Code} (h : p.compile = .ok code) :
    ∃ entries drafts t, p.Emitted .start entries drafts code t := by
  unfold compile at h
  cases hl : p.lower .start with
  | error e s =>
    simp only [hl] at h
    cases h
  | ok code' t =>
    simp only [hl] at h
    cases h
    obtain ⟨entries, drafts, g⟩ := emitted_of_lower Lowering.idle_start hl
    exact ⟨entries, drafts, t, g⟩

end Program

structure Program.Placed (p : Program) (code : Code) (entry : String → Nat) : Prop where
  body : ∃ b, p.body.block p.layout = some b ∧
    code.Holds entry 0 (b ++ [fixed (.exit .accumulator)])
  function : ∀ f ∈ p.functions, ∃ cell b,
    f.block { p.layout with cell, start := entry f.name } = some b ∧
      code.Holds entry (entry f.name) b

/-- A function starts where the linker has its address. -/
theorem Program.Emitted.address_eq {p : Program} {entries : List (String × Nat)}
    {drafts : List Draft} {code : Code} {t : Lowering} {name : String} {address : Nat}
    (h : p.Emitted .start entries drafts code t) (hf : (name, address) ∈ entries) :
    (t.linker.address? name).getD 0 = address := by
  have haddresses : t.linker.addresses = entries.reverse := h.addresses.trans (List.append_nil _)
  obtain ⟨b, rest, -, hrest, -⟩ := draft_eq_some.1 h.draft_eq
  have hkeys : (entries.map Prod.fst).Nodup := by
    rw [Function.entries_blocks hrest]
    exact h.names
  rw [Linker.address?, haddresses, lookup_reverse hkeys, lookup_of_mem hkeys hf, Option.getD_some]

/-- Compiled code holds the program, placed from address zero on. -/
theorem Program.placed_of_compile {p : Program} {code : Code} (h : p.compile = .ok code) :
    ∃ entry, p.Placed code entry := by
  obtain ⟨entries, drafts, t, g⟩ := emitted_of_compile h
  obtain ⟨b, fs, hb, hfs, rfl⟩ := draft_eq_some.1 g.draft_eq
  have hlinked := g.instructions
  refine ⟨fun name => (t.linker.address? name).getD 0, ⟨b, hb, ?_⟩, fun f hf => ?_⟩
  · exact Code.holds_of_append (a := []) (c := fs) hlinked
  · obtain ⟨x, c, y, hc, rfl, hentry⟩ := Function.block_of_mem hfs hf
    have haddress : (t.linker.address? f.name).getD 0 =
        (b ++ [fixed (.exit .accumulator)] ++ x).length := by
      rw [g.address_eq hentry, List.length_append]
      simp only [Layout.behind, layout, Nat.zero_add]
    refine ⟨((p.layout.behind (b ++ [fixed (.exit .accumulator)])).behind x).cell, c, ?_, ?_⟩
    · rw [haddress, List.length_append, ← hc]
      simp only [Layout.grounded, Layout.behind, layout, Nat.zero_add]
    · simp only [haddress]
      exact Code.holds_of_append (c := y) (by simpa using hlinked)

end Sigil
