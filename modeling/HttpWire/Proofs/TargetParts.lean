import HttpWire.Proofs.Authorities

-- Each part lacks the marks that would end it, so that every cut comes where two parts meet.
namespace HttpWire.Target

structure Part (marks : List Char) where
  text : Text
  clear : Clear marks text

structure Port where
  digits : Text
  number : Nat
  decimal : Framing.Decimal portBound digits number

-- A host has its colons in brackets only, so that the next one leads a port.
structure Site where
  host : Part ['/', '?', '#', '@']
  proper : (host.text ≠ [] ∧ ':' ∉ host.text ∧ host.text.head? ≠ some '[') ∨
    ∃ inside, host.text = '[' :: (inside ++ [']']) ∧ ']' ∉ inside
  port : Option Port

structure Resource where
  path : Part ['?', '#']
  rooted : path.text = [] ∨ path.text.head? = some '/'
  query : Option (Part ['#'])
  fragment : Option (Part [])

structure Link where
  scheme : Part ['/', '#', ':']
  named : scheme.text ≠ []
  userinfo : Option (Part ['/', '?', '#'])
  site : Site
  resource : Resource

def led (mark : Char) (t : Option Text) : Text := t.elim [] (mark :: ·)

def Site.text (s : Site) : Text := s.host.text ++ led ':' (s.port.map Port.digits)

def Resource.bareText (r : Resource) : Text := r.path.text ++ led '?' (r.query.map Part.text)

def Resource.text (r : Resource) : Text := r.bareText ++ led '#' (r.fragment.map Part.text)

def Link.user (l : Link) : Text := l.userinfo.elim [] (·.text ++ ['@'])

def Link.text (l : Link) : Text :=
  l.scheme.text ++ ("://".toList ++ (l.user ++ l.site.text ++ l.resource.text))

-- A link without a path asks for the root.
def Link.target (l : Link) : Target :=
  { host := some l.site.host.text
    port := l.site.port.map Port.number
    path := some (if l.resource.path.text = [] then ['/'] else l.resource.path.text)
    query := l.resource.query.map Part.text }

section Clearing

variable {marks : List Char}

theorem Clear.led {mark : Char} {part : Option Text} (head : Clear marks [mark])
    (clear : ∀ t ∈ part, Clear marks t) : Clear marks (led mark part) := by
  cases part with
  | none => exact nofun
  | some t => exact head.append (clear t rfl)

theorem Part.led_clear {fewer : List Char} {mark : Char} (part : Option (Part marks))
    (head : Clear fewer [mark]) (inside : fewer ⊆ marks) :
    Clear fewer (led mark (part.map Part.text)) := by
  apply Clear.led head
  intro t found
  obtain ⟨p, _, rfl⟩ := Option.map_eq_some_iff.mp found
  exact p.clear.mono inside

theorem Port.clear (p : Port) (marks : List Char) (undigital : marks.any Char.isDigit = false) :
    Clear marks p.digits := by
  intro c member
  have digit := p.decimal.digits c member
  exact ⟨digit_graphic c digit, fun mark => List.any_eq_false.mp undigital c mark digit⟩

theorem Site.clear (s : Site) : Clear ['/', '?', '#', '@'] s.text := by
  apply s.host.clear.append
  apply Clear.led (by decide)
  intro t found
  obtain ⟨p, _, rfl⟩ := Option.map_eq_some_iff.mp found
  exact p.clear _ rfl

theorem Resource.bareText_clear (r : Resource) : Clear ['#'] r.bareText :=
  (r.path.clear.mono (by decide)).append (Part.led_clear r.query (by decide) (by decide))

theorem Resource.text_clear (r : Resource) : Clear [] r.text :=
  (r.bareText_clear.mono (by decide)).append (Part.led_clear r.fragment (by decide) (by decide))

theorem Link.authority_clear (l : Link) : Clear ['/', '?', '#'] (l.user ++ l.site.text) := by
  refine Clear.append ?_ (l.site.clear.mono (by decide))
  unfold Link.user
  cases l.userinfo with
  | none => exact nofun
  | some u => exact u.clear.append (by decide)

theorem Link.text_clear (l : Link) : Clear [] l.text := by
  apply (l.scheme.clear.mono (by decide)).append
  apply Clear.append (by decide)
  exact (l.authority_clear.mono (by decide)).append l.resource.text_clear

end Clearing

section Meeting

theorem led_head {mark : Char} {part : Option Text} : ∀ c ∈ (led mark part).head?, c = mark := by
  intro c first
  cases part with
  | none => cases first
  | some t =>
    cases first
    rfl

theorem bare_led {t : Text} (clear : Clear ['#'] t) (fragment : Option Text) :
    bare (t ++ led '#' fragment) = t := by
  apply (takeWhile_parts ?_ ?_).1
  · intro c member
    have other : c ≠ '#' := by
      rintro rfl
      exact clear.free (List.mem_cons_self ..) member
    exact decide_eq_true other
  · intro c first
    rw [led_head c first]
    rfl

theorem bare_clear {t : Text} (clear : Clear ['#'] t) : bare t = t := by
  have same := bare_led clear none
  rwa [led, Option.elim_none, List.append_nil] at same

theorem ofPath_led {path : Text} (free : '?' ∉ path) (query : Option Text) :
    ofPath (path ++ led '?' query) = { path := some path, query } := by
  unfold ofPath
  cases query with
  | none => rw [led, Option.elim_none, List.append_nil, cutAt_none _ _ free]
  | some q => rw [led, Option.elim_some, cutAt_first _ _ _ free]

-- In front of an `@` there may be others, behind the last there is none.
theorem place_behind {front t : Text} (ends : ∀ c ∈ front.getLast?, c = '@') (free : '@' ∉ t) :
    place (front ++ t) = t := by
  have whole : ∀ c ∈ t.reverse, decide (c ≠ '@') = true := by
    intro c member
    have other : c ≠ '@' := by
      rintro rfl
      exact free (List.mem_reverse.mp member)
    exact decide_eq_true other
  have stops : ∀ c ∈ front.reverse.head?, decide (c ≠ '@') = false := by
    intro c first
    rw [List.head?_reverse] at first
    rw [ends c first]
    rfl
  unfold place List.rtakeWhile
  rw [List.reverse_append, (takeWhile_parts whole stops).1, List.reverse_reverse]

theorem Link.user_last (l : Link) : ∀ c ∈ l.user.getLast?, c = '@' := by
  intro c last
  unfold Link.user at last
  cases chosen : l.userinfo with
  | none =>
    rw [chosen] at last
    cases last
  | some u =>
    rw [chosen, Option.elim_some, List.getLast?_append] at last
    cases last
    rfl

end Meeting

section Reading

theorem Site.placed (s : Site) : Placed s.text s.host.text (s.port.map Port.number) := by
  have proper : Host s.host.text := by
    rcases s.proper with ⟨real, free, unopened⟩ | ⟨inside, same, free⟩
    · exact .plain _ real free fun bracket => absurd bracket unopened
    · rw [same]
      exact .bracketed inside free
  unfold Site.text
  cases s.port with
  | none =>
    rw [Option.map_none, led, Option.elim_none, List.append_nil]
    exact .alone _ proper
  | some p =>
    exact .ported _ p.digits p.number proper ((Framing.signedBelow?_iff _ _ _).mpr ⟨_, .inl rfl, p.decimal⟩)

theorem Site.authority?_text (s : Site) {front : Text} (ends : ∀ c ∈ front.getLast?, c = '@') :
    authority? (front ++ s.text) = some (s.host.text, s.port.map Port.number) := by
  rw [authority?_iff, place_behind ends (s.clear.free (by decide))]
  exact .inl s.placed

theorem Resource.ofPath_text (r : Resource) :
    ofPath r.bareText = { path := some r.path.text, query := r.query.map Part.text } :=
  ofPath_led (r.path.clear.free (by decide)) _

theorem Resource.bareText_head (r : Resource) : ∀ c ∈ r.bareText.head?, endsAuthority c = true := by
  intro c first
  unfold Resource.bareText at first
  rcases r.rooted with empty | root
  · rw [empty, List.nil_append] at first
    rw [led_head c first]
    rfl
  · have real : r.path.text ≠ [] := by
      intro empty
      rw [empty] at root
      cases root
    rw [List.head?_append_of_ne_nil _ real, root] at first
    cases first
    rfl

theorem Link.ofAbsolute?_text (l : Link) :
    ofAbsolute? (l.user ++ l.site.text ++ l.resource.bareText) = some l.target := by
  have inside : ∀ c ∈ l.user ++ l.site.text, (!endsAuthority c) = true := by
    intro c member
    have free := (l.authority_clear c member).2
    simp only [List.mem_cons, List.not_mem_nil, or_false, not_or] at free
    simp [endsAuthority, free]
  have behind : ∀ c ∈ l.resource.bareText.head?, (!endsAuthority c) = false := by
    intro c first
    rw [l.resource.bareText_head c first]
    rfl
  obtain ⟨front, rest⟩ := takeWhile_parts inside behind
  unfold ofAbsolute? Link.target
  rw [front, rest, l.site.authority?_text l.user_last, l.resource.ofPath_text]
  simp only [Option.map_some, Option.some.injEq, Target.mk.injEq, true_and, and_true]
  split <;> rfl

theorem Link.bare_text (l : Link) :
    bare l.text = l.scheme.text ++ ("://".toList ++ (l.user ++ l.site.text ++ l.resource.bareText)) := by
  have clear : Clear ['#']
      (l.scheme.text ++ ("://".toList ++ (l.user ++ l.site.text ++ l.resource.bareText))) := by
    apply (l.scheme.clear.mono (by decide)).append
    apply Clear.append (by decide)
    exact (l.authority_clear.mono (by decide)).append l.resource.bareText_clear
  rw [← bare_led clear (l.resource.fragment.map Part.text)]
  unfold Link.text Resource.text
  simp only [List.append_assoc]

theorem Link.text_hosted (l : Link) (rest : Text) : ¬ Unhosted (l.scheme.text ++ ("://".toList ++ rest)) := by
  obtain ⟨c, later, scheme⟩ := List.exists_cons_of_ne_nil l.named
  have first : c ≠ '/' := by
    rintro rfl
    apply l.scheme.clear.free (List.mem_cons_self ..)
    rw [scheme]
    exact List.mem_cons_self ..
  rintro (star | root)
  · have colon : ':' ∈ l.scheme.text ++ ("://".toList ++ rest) := by simp
    rw [star] at colon
    exact absurd colon (by decide)
  · rw [scheme] at root
    exact first (Option.some.inj root)

theorem Link.form (l : Link) : Form (bare l.text) l.target := by
  have unmarked : ¬ "://".toList <:+: l.scheme.text := fun mark =>
    l.scheme.clear.free (by decide) (mark.subset (List.mem_cons_self ..))
  have cut := cutMark_at ':' ['/', '/'] l.scheme.text (l.user ++ l.site.text ++ l.resource.bareText)
    (by decide) unmarked
  rw [l.bare_text]
  exact .absolute _ _ _ _ (l.text_hosted _) cut l.named l.ofAbsolute?_text

theorem Resource.form (r : Resource) (real : r.path.text ≠ []) : Form (bare r.text)
    { path := some r.path.text, query := r.query.map Part.text } := by
  have root : r.bareText.head? = some '/' := by
    rcases r.rooted with empty | root
    · exact absurd empty real
    · exact (List.head?_append_of_ne_nil _ real).trans root
  unfold Resource.text
  rw [bare_led r.bareText_clear, ← r.ofPath_text]
  exact .rooted _ root

theorem Site.real (s : Site) : s.host.text ≠ [] := by
  rcases s.proper with ⟨real, _⟩ | ⟨inside, same, _⟩
  · exact real
  · rw [same]
    exact List.cons_ne_nil _ _

theorem Site.form (s : Site) (plain : s.host.text ≠ ['*']) : Form (bare s.text)
    { host := some s.host.text, port := s.port.map Port.number } := by
  have whole : bare s.text = s.text := bare_clear (s.clear.mono (by decide))
  have slashless : '/' ∉ s.text := s.clear.free (by decide)
  have read : authority? ([] ++ s.text) = some (s.host.text, s.port.map Port.number) :=
    s.authority?_text nofun
  rw [whole]
  refine .alone _ _ _ ?_ ?_ read
  · rintro (star | root)
    · rcases List.append_eq_singleton_iff.mp star with ⟨empty, _⟩ | ⟨same, _⟩
      · exact s.real empty
      · exact plain same
    · exact slashless (List.mem_of_head? root)
  · apply (cutMark_none _ _ (by decide)).mpr
    intro mark
    exact slashless (mark.subset (by decide))

end Reading

theorem parts_recovered :
    (∀ l : Link, parse? l.text = some
      { host := some l.site.host.text
        port := l.site.port.map Port.number
        path := some (if l.resource.path.text = [] then ['/'] else l.resource.path.text)
        query := l.resource.query.map Part.text }) ∧
    (∀ r : Resource, r.path.text ≠ [] → parse? r.text = some
      { path := some r.path.text
        query := r.query.map Part.text }) ∧
    (∀ s : Site, s.host.text ≠ ['*'] → parse? s.text = some
      { host := some s.host.text
        port := s.port.map Port.number }) := by
  refine ⟨fun l => ?_, fun r real => ?_, fun s plain => ?_⟩
  · exact parse?_iff.mpr ⟨List.append_ne_nil_of_left_ne_nil l.named _, l.text_clear.graphic, l.form⟩
  · have filled : r.bareText ≠ [] := List.append_ne_nil_of_left_ne_nil real _
    exact parse?_iff.mpr ⟨List.append_ne_nil_of_left_ne_nil filled _, r.text_clear.graphic, r.form real⟩
  · exact parse?_iff.mpr ⟨List.append_ne_nil_of_left_ne_nil s.real _, s.clear.graphic, s.form plain⟩

theorem parts_recovered_bracketed :
    parse? "wss://a:b@c@[::1]:0443?to=http://[d]@e:1/#f?/#".toList = some
      { host := some "[::1]".toList
        port := some 443
        path := some ['/']
        query := some "to=http://[d]@e:1/".toList } ∧
    parse? "/://a@b:c?".toList = some { path := some "/://a@b:c".toList, query := some [] } ∧
    parse? "a*:65535".toList = some { host := some "a*".toList, port := some 65535 } := by
  have four : Framing.Decimal portBound "0443".toList 443 :=
    ⟨by decide, List.all_eq_true.mp rfl, rfl, by decide⟩
  have last : Framing.Decimal portBound "65535".toList 65535 :=
    ⟨by decide, List.all_eq_true.mp rfl, rfl, by decide⟩
  refine ⟨?_, ?_, ?_⟩
  · exact parts_recovered.1
      { scheme := ⟨"wss".toList, by decide⟩
        named := by decide
        userinfo := some ⟨"a:b@c".toList, by decide⟩
        site :=
          { host := ⟨"[::1]".toList, by decide⟩
            proper := .inr ⟨"::1".toList, rfl, by decide⟩
            port := some ⟨_, _, four⟩ }
        resource :=
          { path := ⟨[], nofun⟩
            rooted := .inl rfl
            query := some ⟨"to=http://[d]@e:1/".toList, by decide⟩
            fragment := some ⟨"f?/#".toList, by decide⟩ } }
  · exact parts_recovered.2.1
      { path := ⟨"/://a@b:c".toList, by decide⟩
        rooted := .inr rfl
        query := some ⟨[], nofun⟩
        fragment := none }
      (by decide)
  · exact parts_recovered.2.2
      { host := ⟨"a*".toList, by decide⟩
        proper := .inl (by decide)
        port := some ⟨_, _, last⟩ }
      (show "a*".toList ≠ ['*'] by decide)

end HttpWire.Target
