import SquadLink.Lib.Substitution
import SquadLink.Lib.Text

/-! The landing page of a share link (`server/init/src/main.rs`, `esc`, `lang_of`, `landing`, `shell`, `footer`;
    `i18n.rs`). `base` is what `public_base` reads from the environment. -/

namespace SquadLink

/-! ### Escaping -/

/-- `str::replace` of a character. -/
def replaceChar (k : Char) (text s : String) : String := String.ofList (Substitution.replace k text.toList s.toList)

/-- Minimal HTML-escape for any value reflected into server-rendered HTML. -/
def esc (s : String) : String :=
  let s := replaceChar '&' "&amp;" s
  let s := replaceChar '<' "&lt;" s
  let s := replaceChar '>' "&gt;" s
  let s := replaceChar '"' "&quot;" s
  replaceChar '\'' "&#x27;" s

/-! ### Languages -/

inductive Lang
  | en
  | de
  | it
  | es
  | fr
deriving DecidableEq, Repr

namespace Lang

def code : Lang → String
  | en => "en"
  | de => "de"
  | it => "it"
  | es => "es"
  | fr => "fr"

def all : List Lang := [en, de, it, es, fr]

def parse (code : String) : Option Lang :=
  match ((Text.trim code).toList.map Char.toLower).take 2 with
  | ['e', 'n'] => some en
  | ['d', 'e'] => some de
  | ['i', 't'] => some it
  | ['e', 's'] => some es
  | ['f', 'r'] => some fr
  | _ => none

/-- `?lang=` wins; else the first matching Accept-Language tag; else English. -/
def detect (query accept : Option String) : Lang :=
  match query.bind parse with
  | some l => l
  | none =>
    match accept with
    | none => en
    | some a => ((a.toList.splitOn ',').findSome? fun part => parse (String.ofList ((part.splitOn ';').headD []))).getD en

end Lang

/-- Best language for a request: ?lang= → Accept-Language → English. -/
def langOf (q accept : Option String) : Lang :=
  let qlang := q.bind fun s => (s.toList.splitOn '&').findSome? fun kv => (kv.dropPrefix? "lang=".toList).map String.ofList
  Lang.detect qlang accept

/-! ### The page -/

namespace I18n

def githubUrl : String := "https://github.com/cccdemon/RDOC-SquadLinkLite"

def raumdockUrl : String := "https://raumdock.org"

/-- Footer nav labels: Download, Privacy, Legal, License. -/
def nav : Lang → String × String × String × String
  | .en => ("Download", "Privacy", "Legal notice", "License")
  | .de => ("Download", "Datenschutz", "Impressum", "Lizenz")
  | .it => ("Download", "Privacy", "Note legali", "Licenza")
  | .es => ("Descargar", "Privacidad", "Aviso legal", "Licencia")
  | .fr => ("Télécharger", "Confidentialité", "Mentions légales", "Licence")

/-- Language switcher: links to the same path with each `?lang=`. -/
def switcher (path : String) (cur : Lang) : String :=
  let link (l : Lang) : String :=
    let on := if l = cur then " class=\"on\"" else ""
    s!"<a href=\"{path}?lang={l.code}\"{on}>{l.code.toUpper}</a>"
  "<nav class=\"lang\">" ++ String.join (Lang.all.map link) ++ "</nav>"

/-- The texts of the landing page: intro, code label, the two steps, button and foot. -/
def landingTexts : Lang → String × String × String × String × String × String
  | .en => ("You have been invited to a voice session.",
    "Session code:",
    "App not installed? Download here",
    "Open the app → Join → enter the code + the 6-digit PIN (from the host).",
    "Download SquadLink Lite",
    "Audio runs directly peer-to-peer (encrypted). The server only brokers.")
  | .de => ("Du wurdest zu einer Voice-Session eingeladen.",
    "Session-Code:",
    "App noch nicht installiert? Hier herunterladen",
    "App öffnen → Beitreten → Code + die 6-stellige PIN (vom Host) eingeben.",
    "SquadLink Lite herunterladen",
    "Audio läuft direkt Peer-zu-Peer (verschlüsselt). Der Server vermittelt nur.")
  | .it => ("Sei stato invitato a una sessione vocale.",
    "Codice sessione:",
    "App non installata? Scaricala qui",
    "Apri l'app → Partecipa → inserisci il codice + il PIN di 6 cifre (dall'host).",
    "Scarica SquadLink Lite",
    "L'audio è diretto peer-to-peer (cifrato). Il server fa solo da tramite.")
  | .es => ("Te han invitado a una sesión de voz.",
    "Código de sesión:",
    "¿App no instalada? Descárgala aquí",
    "Abre la app → Unirse → introduce el código + el PIN de 6 dígitos (del anfitrión).",
    "Descargar SquadLink Lite",
    "El audio es directo peer-to-peer (cifrado). El servidor solo intermedia.")
  | .fr => ("Vous avez été invité à une session vocale.",
    "Code de session :",
    "App non installée ? Téléchargez-la ici",
    "Ouvrez l'app → Rejoindre → saisissez le code + le PIN à 6 chiffres (de l'hôte).",
    "Télécharger SquadLink Lite",
    "L'audio est direct pair-à-pair (chiffré). Le serveur ne fait que l'intermédiaire.")

/-- Share-link landing in the chosen language (`code` is already HTML-escaped). -/
def landing (l : Lang) (base code : String) : String :=
  let (intro, codelbl, step1, step2, btn, foot) := landingTexts l
  s!"<h1>RDOC SquadLink Lite</h1>
<p>{intro}</p>
<p class=\"muted\">{codelbl}</p>
<p class=\"code\">{code}</p>
<ol>
<li><a href=\"{base}/download/\">{step1}</a></li>
<li>{step2}</li>
</ol>
<p><a class=\"dl\" href=\"{base}/download/\">{btn}</a></p>
<p class=\"muted\">{foot}</p>"

end I18n

/-- CSP meta for the server-rendered pages (no scripts; inline styles + the logo). -/
def htmlCsp : String :=
  "<meta http-equiv=\"Content-Security-Policy\" content=\"default-src 'none'; img-src 'self' data:; " ++
    "style-src 'unsafe-inline'; base-uri 'none'; form-action 'none'\">"

def pageCss : String := "<style>
:root\x7bcolor-scheme:dark\x7d
body\x7bfont-family:system-ui,-apple-system,Segoe UI,sans-serif;background:#0f1115;color:#dfe3e8;margin:0;line-height:1.6\x7d
main\x7bmax-width:40rem;margin:0 auto;padding:1.4rem 1.2rem 3rem\x7d
.top\x7bdisplay:flex;align-items:center;gap:.55rem;padding:.9rem 1.2rem;border-bottom:1px solid #242833\x7d
.top img\x7bwidth:26px;height:26px;display:block\x7d
.top a\x7bcolor:#dfe3e8;text-decoration:none;font-weight:600\x7d
h1\x7bfont-size:1.45rem;font-weight:600;margin:.3rem 0 .7rem\x7d
h2\x7bfont-size:1.05rem;font-weight:600;margin:1.5rem 0 .3rem\x7d
p\x7bmargin:.6rem 0\x7d
a\x7bcolor:#7fb0ff\x7d
.muted\x7bcolor:#9aa3ad;font-size:.9rem\x7d
ul\x7bpadding-left:1.25rem;margin:.5rem 0\x7d
.links a\x7bdisplay:block;margin:.25rem 0\x7d
.dl\x7bdisplay:inline-block;margin:.5rem 0;padding:.5rem .9rem;border:1px solid #3a414e;border-radius:5px;text-decoration:none;color:#dfe3e8\x7d
.code\x7bfont-size:1.5rem;font-weight:700;letter-spacing:.1em;background:#0b1626;border:1px solid #1e293b;border-radius:8px;padding:.5rem 1rem;display:inline-block\x7d
.lang\x7bmargin-left:auto;display:flex;gap:.45rem\x7d
.lang a\x7bcolor:#9aa3ad;font-size:.78rem;text-decoration:none\x7d
.lang a.on\x7bcolor:#7fb0ff;font-weight:700\x7d
footer\x7bmax-width:40rem;margin:0 auto;padding:1rem 1.2rem;border-top:1px solid #242833;color:#9aa3ad;font-size:.82rem\x7d
footer a\x7bcolor:#9aa3ad;margin-right:1rem;display:inline-block\x7d
code\x7bbackground:#1a1d23;padding:.1rem .3rem;border-radius:3px\x7d
</style>"

/-- The standard raumdock logo. -/
def logo : String :=
  "data:image/svg+xml,%3Csvg xmlns='http://www.w3.org/2000/svg' viewBox='0 0 100 100'%3E" ++
    "%3Ccircle cx='50' cy='50' r='48' fill='%230a0a0a'/%3E" ++
    "%3Cpath d='M22 62 q28 14 56 0 l-6-22 q-24-10-44 0 z' fill='%23444'/%3E" ++
    "%3Cellipse cx='50' cy='46' rx='26' ry='18' fill='%23f6c200'/%3E" ++
    "%3Cellipse cx='62' cy='40' rx='8' ry='5' fill='%23ffffff' opacity='.5'/%3E%3C/svg%3E"

def footer (base : String) (lang : Lang) : String :=
  let (download, privacy, legal, license) := I18n.nav lang
  let lc := lang.code
  s!"<a href=\"{base}/download/\">{download}</a><a href=\"/privacy?lang={lc}\">{privacy}</a>" ++
    s!"<a href=\"/legal?lang={lc}\">{legal}</a><a href=\"/license?lang={lc}\">{license}</a>" ++
    s!"<a href=\"{I18n.githubUrl}\">GitHub</a><a href=\"{I18n.raumdockUrl}\">raumdock.org</a>"

/-- Everything before the body. -/
def shellHead (base : String) (lang : Lang) (path title : String) : String :=
  let lc := lang.code
  s!"<!doctype html><html lang=\"{lc}\"><head><meta charset=\"utf-8\">{htmlCsp}" ++
    "<meta name=\"viewport\" content=\"width=device-width, initial-scale=1\">" ++
    s!"<title>{title} — RDOC SquadLink Lite</title><link rel=\"icon\" href=\"{base}/download/sl-logo.png\">" ++
    s!"{pageCss}</head><body><header class=\"top\"><img src=\"{base}/download/sl-logo.png\" alt=\"SquadLink Lite\" " ++
    s!"onerror=\"this.onerror=null;this.src='{logo}'\"><a href=\"/?lang={lc}\">RDOC SquadLink Lite</a>" ++
    I18n.switcher path lang ++ "</header>"

def shell (base : String) (lang : Lang) (path title body : String) : String :=
  shellHead base lang path title ++ s!"<main>{body}</main><footer>{footer base lang}</footer></body></html>"

/-- The share code as it is put into the page. -/
def inserted (code : String) : String := esc (String.ofList (code.toList.take 32))

/-- Human landing page for a share link (localized; code is HTML-escaped). -/
def landing (base code : String) (q accept : Option String) : String :=
  let lang := langOf q accept
  let code := inserted code
  shell base lang s!"/j/{code}" "RDOC SquadLink Lite" (I18n.landing lang base code)

/-! ### Escaping is one substitution -/

/-- The characters that are escaped and their entities, in the order of the passes. -/
def entities : List (Char × List Char) :=
  [('&', "&amp;".toList), ('<', "&lt;".toList), ('>', "&gt;".toList), ('"', "&quot;".toList), ('\'', "&#x27;".toList)]

/-- What a character is escaped to. -/
def escChar : Char → List Char
  | '&' => "&amp;".toList
  | '<' => "&lt;".toList
  | '>' => "&gt;".toList
  | '"' => "&quot;".toList
  | '\'' => "&#x27;".toList
  | c => [c]

/-- The entities are read back as the characters they stand for. -/
def unescape (s : String) : String := String.ofList (Substitution.readBack entities 0 s.toList)

/-- `t` is a faithful escaping of `s`. -/
structure Escapes (s t : String) : Prop where
  /-- Every character is replaced on its own, all at once. -/
  simultaneous : t.toList = s.toList.flatMap escChar
  noMarkup : '<' ∉ t.toList ∧ '>' ∉ t.toList ∧ '"' ∉ t.toList ∧ '\'' ∉ t.toList
  ampersands : ∀ pre post, t.toList = pre ++ '&' :: post → ∃ e ∈ entities, e.2 <+: '&' :: post
  unescaped : unescape t = s

theorem toList_esc (s : String) : (esc s).toList = Substitution.passes entities s.toList := by
  simp only [esc, replaceChar, Substitution.passes, entities, String.toList_ofList, List.foldl_cons, List.foldl_nil]

theorem subst_entities (c : Char) : Substitution.subst entities c = escChar c := by
  unfold escChar
  split <;> simp_all [Substitution.subst, entities]

theorem entities_ordered : Substitution.Ordered entities := by
  unfold Substitution.Ordered entities
  decide

theorem entities_marked : Substitution.Marked '&' entities where
  texts := by
    intro r hr
    simp only [entities, List.mem_cons, List.not_mem_nil, or_false] at hr
    rcases hr with rfl | rfl | rfl | rfl | rfl <;> exact ⟨_, rfl, by decide⟩
  prefixFree := by decide
  markRule := by decide

theorem toList_esc_subst (s : String) : (esc s).toList = s.toList.flatMap (Substitution.subst entities) :=
  (toList_esc s).trans (Substitution.passes_eq entities_ordered s.toList)

theorem escapes_esc (s : String) : Escapes s (esc s) := by
  have gone {k : Char} (hk : k ∈ entities.map Prod.fst) (h : ∀ r ∈ entities, k ∉ r.2) : k ∉ (esc s).toList := by
    rw [toList_esc_subst]
    exact Substitution.notMem_flatMap_subst hk h
  refine ⟨?_, ⟨gone (by decide) (by decide), gone (by decide) (by decide), gone (by decide) (by decide),
    gone (by decide) (by decide)⟩, fun pre post h => ?_, ?_⟩
  · rw [toList_esc_subst]
    exact List.flatMap_congr fun c _ => subst_entities c
  · rw [toList_esc_subst] at h
    exact Substitution.mark_starts entities_marked h
  · rw [unescape, toList_esc_subst, Substitution.readBack_flatMap_subst entities_marked, String.ofList_toList]

/-! ### Fixed and inserted text -/

/-- The characters that the markup of a page is made of. -/
def isMarkup (c : Char) : Bool := c == '<' || c == '>' || c == '"' || c == '\''

/-- A text in fixed pieces, with the same text inserted where there is none. -/
def fill (pieces : List (Option String)) (x : String) : String := String.join (pieces.map fun p => p.getD x)

/-- Outside what is inserted the text does not depend on it. -/
def Inserts (page : String → String) : Prop := ∃ pieces, ∀ x, page x = fill pieces x

section
variable {f g : String → String}

theorem Inserts.fixed (s : String) : Inserts fun _ => s := ⟨[some s], fun x => by simp [fill, String.join]⟩

theorem Inserts.hole : Inserts fun x => x := ⟨[none], fun x => by simp [fill, String.join]⟩

theorem fill_append (ps qs : List (Option String)) (x : String) : fill (ps ++ qs) x = fill ps x ++ fill qs x := by
  refine String.toList_inj.mp ?_
  simp only [fill, String.toList_append, String.toList_join, List.map_append, List.flatMap_append]

/-- Text without markup adds none. -/
theorem filter_fill (pieces : List (Option String)) {x : String} (hx : x.toList.filter isMarkup = []) :
    (fill pieces x).toList.filter isMarkup = (fill pieces "").toList.filter isMarkup := by
  simp only [fill, String.toList_join, List.filter_flatMap, List.flatMap_map]
  refine List.flatMap_congr fun p _ => ?_
  cases p with
  | none => exact hx
  | some s => rfl

theorem Inserts.append (hf : Inserts f) (hg : Inserts g) : Inserts fun x => f x ++ g x := by
  obtain ⟨ps, hps⟩ := hf
  obtain ⟨qs, hqs⟩ := hg
  exact ⟨ps ++ qs, fun x => by rw [fill_append, ← hps, ← hqs]⟩

theorem Inserts.join {ι : Type} {f : ι → String → String} (l : List ι) (h : ∀ i, Inserts (f i)) :
    Inserts fun x => String.join (l.map fun i => f i x) := by
  induction l with
  | nil => exact .fixed ""
  | cons i l ih => simpa only [List.map_cons, String.join_cons] using (h i).append ih

theorem inserts_switcher (cur : Lang) (hf : Inserts f) : Inserts fun x => I18n.switcher (f x) cur := by
  refine ((Inserts.fixed _).append (.join Lang.all fun l => ?_)).append (.fixed _)
  apply_rules [Inserts.append, Inserts.fixed, hf]

theorem inserts_landing (l : Lang) (base : String) : Inserts fun x => I18n.landing l base x := by
  unfold I18n.landing
  apply_rules [Inserts.append, Inserts.fixed, Inserts.hole]

theorem inserts_shell (base : String) (lang : Lang) (title : String) (hf : Inserts f) (hg : Inserts g) :
    Inserts fun x => shell base lang (f x) title (g x) := by
  have head : Inserts fun x => shellHead base lang (f x) title :=
    .append (.append (.fixed _) (inserts_switcher lang hf)) (.fixed _)
  exact .append head (.append (.append (.append (.append (.fixed _) hg) (.fixed _)) (.fixed _)) (.fixed _))

end

/-- Around the share code every landing page is the same. -/
theorem landing_fills (base : String) (q accept : Option String) :
    ∃ pieces, ∀ code, landing base code q accept = fill pieces (inserted code) := by
  have path : Inserts fun x => s!"/j/{x}" := (Inserts.fixed "/j/").append .hole
  have body := inserts_landing (langOf q accept) base
  obtain ⟨pieces, h⟩ := inserts_shell base (langOf q accept) "RDOC SquadLink Lite" path body
  exact ⟨pieces, fun code => h (inserted code)⟩

theorem inserted_clean (code : String) : (inserted code).toList.filter isMarkup = [] := by
  obtain ⟨-, ⟨lt, gt, quot, apos⟩, -, -⟩ := escapes_esc (String.ofList (code.toList.take 32))
  refine List.filter_eq_nil_iff.mpr fun c hc hm => ?_
  simp only [isMarkup, Bool.or_eq_true, beq_iff_eq] at hm
  rcases hm with ((rfl | rfl) | rfl) | rfl
  · exact lt hc
  · exact gt hc
  · exact quot hc
  · exact apos hc

/-- Escaping is a faithful substitution, and around the escaped share code the landing page is the same for every
    code: it has no markup but the page's own. -/
theorem escaping_faithful : (∀ s, Escapes s (esc s)) ∧ ∀ base q accept,
    (∃ pieces, ∀ code, landing base code q accept = fill pieces (inserted code)) ∧
      ∀ code code', (landing base code q accept).toList.filter isMarkup =
        (landing base code' q accept).toList.filter isMarkup := by
  refine ⟨escapes_esc, fun base q accept => ⟨landing_fills base q accept, fun code code' => ?_⟩⟩
  obtain ⟨pieces, h⟩ := landing_fills base q accept
  rw [h, h, filter_fill pieces (inserted_clean code), filter_fill pieces (inserted_clean code')]

end SquadLink
