import Rulebook.Unicode.CharSet

/-!
# Scripts

Every character belongs to one script, or is common to several or inherits the
script of its neighbour.  The extension of a script is the set of characters
used with it; it is listed by its difference from the script itself.
-/

namespace Rulebook
namespace Unicode

/-- A script: its names, the text of its characters, and the text of those that
belong to only one of the script and its extension. -/
structure Script where
  names : List String
  characters : String
  extensionDifference : String

/-- The scripts. -/
def scripts : List Script := [
  ⟨["Adlm", "Adlam"],
    "2olc.23 4.9 4.1",
    "17j w 55a 2r5"⟩,
  ⟨["Ahom", "Ahom"],
    "1j40.q 2.e 4.m",
    ""⟩,
  ⟨["Hluw", "Anatolian_Hieroglyphs"],
    "1s00.g6",
    ""⟩,
  ⟨["Arab", "Arabic"],
    "16o.4 1.5 1.d 1.2 1.v 1.9 b.p 1.2z 1.x 28.1b 6o.x 5.22 1.s 1bv4.dp 2.3z w.f 34.4 1.3q
    31f.u 1v.5 8.8 x.5 181s.3 1.q 1.1 1 2 1.9 1.3 1 1 6 4 1 1 1.2 1.1 1 2 1 1 1 1 1.1 1 2.3
    1.6 1.3 1.3 1 1.9 1.g 5.2 1.4 1.g 1g.1",
    "170 e 3 w a.a q 53y 2r5 14vw.1 140.r"⟩,
  ⟨["Armn", "Armenian"],
    "10x.11 2.1d 2.2 1chv.4",
    "lk"⟩,
  ⟨["Avst", "Avestan"],
    "1gqo.1h 3.6",
    "53 8zc.1"⟩,
  ⟨["Bali", "Balinese"],
    "5c0.24 1.1d",
    ""⟩,
  ⟨["Bamu", "Bamum"],
    "www.2f 124o.fs",
    ""⟩,
  ⟨["Bass", "Bassa_Vah"],
    "1zo0.t 2.5",
    ""⟩,
  ⟨["Batk", "Batak"],
    "5hc.1f 8.3",
    ""⟩,
  ⟨["Beng", "Bengali"],
    "1vk.3 1.7 2.1 2.l 1.6 1 3.3 2.8 2.1 2.3 8 4.1 1.4 2.o",
    "jg 1as.1 h.1 3u2 1 2.1 1 8 8 2 4 2.2 rnd"⟩,
  ⟨["Berf", "Beria_Erfe"],
    "20f4.o 2.o",
    ""⟩,
  ⟨["Bhks", "Bhaiksuki"],
    "1k3k.8 1.18 1.d a.s",
    ""⟩,
  ⟨["Bopo", "Bopomofo"],
    "kq.1 93t.16 34.v",
    "jr 1.2 d 8x3.2 4.9 1.c a.3 2 6 5f 14jt.1 7u.4"⟩,
  ⟨["Brah", "Brahmi"],
    "1hq8.25 4.z 9",
    ""⟩,
  ⟨["Brai", "Braille"],
    "7wg.73",
    ""⟩,
  ⟨["Bugi", "Buginese"],
    "54w.r 2.1",
    "xjj"⟩,
  ⟨["Buhd", "Buhid"],
    "4lc.j",
    "4l1.1"⟩,
  ⟨["Cans", "Canadian_Aboriginal"],
    "3y8.hr fk.1x 1ewq.f",
    ""⟩,
  ⟨["Cari", "Carian"],
    "1f34.1c",
    "53 68y 2 2qb"⟩,
  ⟨["Aghb", "Caucasian_Albanian"],
    "1flc.1f b",
    "lg 18 18"⟩,
  ⟨["Cakm", "Chakma"],
    "1hxc.1g 1.h",
    "1ye.9 18w.9"⟩,
  ⟨["Cham", "Cham"],
    "xkw.1i 9.d 2.9 2.3",
    ""⟩,
  ⟨["Cher", "Cherokee"],
    "3vk.2d 2.5 twy.27",
    "lc.2 1 6.1 m.1 b.1"⟩,
  ⟨["Chrs", "Chorasmian"],
    "1ho0.r",
    ""⟩,
  ⟨["Zyyy", "Common"],
    "0.1s q.5 q.1a 1.e 1.4 n v ch.12 5.4 2.j 38 9 6 1 hp 6 e 3 w 4c ec 3l.1 yh b9.3 82 167.2
    1z.1 5n.1 1 y5 d 7.3 1.5 1.2 2 lh.b 2.2e 1.a 3.a 1.e h.x 1q.11 1.2 2.5 1.q 1.g 15.2 4.ih
    m.a l.pr 74.hf 2.3t e8.2l b6.k 1 1.o f.7 4.3 2j.1 3 2i.1 43.f w.11 9 1c.1r v.28 1b 2g.4n
    534.1r hkw.x 2u.2 4l.9 6s 4g az e.1 g5u.1 5s.9 m.y 1.i 1.3 43 1.v q.5 q.a a 19.1 1s.6 1.6
    a.4 76.2 4.18 3.8 28.c 1f.18 6c.q 10o4.3 318.70 3.c3 6.m f.g 2n.37 1o.6t a.12 2.1p 3.g 8.1
    7.t 4.1o 5x.j c.j c.2e 9.o 3r.2c 1.1y 1.1 2 2.1 2.3 1.b 1 1.6 1.1s 1.3 2.7 1.6 1.r 1.3 1.4
    1 3.6 1.9f 2.83 2.1d 41d.1v 24.1o jm.17 4.2r c.e 2.e 1.e 1.10 a.4t 1k.p 1.1 d.17 4.8 7.1
    e.5 4a.rc 3.g 3.c 3.61 6.b 4 f.b 4.1j 8.9 6.13 8.t 2.b 4.1 e.8 13.9j 8.d 2.c 3.a 3.1k 1
    4.f 2.b 4.9 7.42 1.2u gvly u.2n",
    "53 ec a 1.2 1 9 1 4a if e 3 w mb.1 1hx 167.2 1z.1 5n.1 1 y5 d 7.3 1.5 1.2 2 ms v a 2 2pl
    o.1 a 4 1 bw.f 1.2 2 1.9 1.c g.5 1 4.3 2j.1 3 2i.1 43.f w.11 9 1c.13 1k.1c f.b 1f 2g.o a.4
    2o.u mpt.7 88.9 6s 4g gha.1 79.1 7u.4 a 19.1 9s.2 4.18 3.8 bl.q 10o4.3 4ho.h 63i.1"⟩,
  ⟨["Copt", "Coptic", "Qaac"],
    "rm.d 80g.37 5.6",
    "53 g8 3.1 1 30.1 8f5 1614.r"⟩,
  ⟨["Xsux", "Cuneiform"],
    "1kw0.pl 2u.32 1.4 b.5f",
    ""⟩,
  ⟨["Cprt", "Cypriot"],
    "1g5c.5 2 1.17 1.1 3 2",
    "1erk.2 4.18 3.8"⟩,
  ⟨["Cpmn", "Cypro_Minoan"],
    "1nyo.2q",
    "1erk.1"⟩,
  ⟨["Cyrl", "Cyrillic"],
    "sg.3o 2.4o 4ls.a 4g 24 38n.v nr4.2n ham.1 18n4.1p x",
    "jg 1v.2 1 1 1 2 5 ab.1 50x 37u"⟩,
  ⟨["Dsrt", "Deseret"],
    "1fcw.27",
    ""⟩,
  ⟨["Deva", "Devanagari"],
    "1s0.28 4.e 2.p vhc.v mio.9",
    "jg 1as.1 h.1 3u2.12 1.1 s6 qpr.9"⟩,
  ⟨["Diak", "Dives_Akuru"],
    "1ji8.6 2 2.7 1.1 1.t 1.1 2.b 9.9",
    ""⟩,
  ⟨["Dogr", "Dogra"],
    "1jb4.1n",
    "1us.b vcw.9"⟩,
  ⟨["Dupl", "Duployan"],
    "2fpc.2y 5.c 3.8 7.9 2.3",
    "53 gf.1 1 o.1 8if 26oz.3"⟩,
  ⟨["Egyp", "Egyptian_Hieroglyphs"],
    "1o1s.ut a.32y",
    ""⟩,
  ⟨["Elba", "Elbasan"],
    "1fk0.13",
    "53 gd"⟩,
  ⟨["Elym", "Elymaic"],
    "1hpc.m",
    ""⟩,
  ⟨["Ethi", "Ethiopic"],
    "3k0.20 1.3 2.6 1 1.3 2.14 1.3 2.w 1.3 2.6 1 1.3 2.e 1.1k 1.3 2.1u 2.v 3.p 546.m 9.6 1.6
    1.6 1.6 1.6 1.6 1.6 1.6 opu.5 2.5 2.5 9.6 1.6 1qk1.6 1.3 1.1 1.e",
    "lq"⟩,
  ⟨["Gara", "Garay"],
    "1h6o.11 3.s 8.1",
    "170 e 3"⟩,
  ⟨["Geor", "Georgian"],
    "3a8.11 1 5 2.16 1.3 2a8.16 2.2 37k.11 1 5",
    "53 y9 29d 31a 2qe"⟩,
  ⟨["Glag", "Glagolitic"],
    "8ow.2n 2e1s.6 1.g 2.6 1.1 1.4",
    "53 gb 1 am 2 75 29d 31a 2qw nqj"⟩,
  ⟨["Goth", "Gothic"],
    "1f74.q",
    "53 gc.1 2 14"⟩,
  ⟨["Gran", "Grantha"],
    "1ibk.3 1.7 2.1 2.l 1.6 1.1 1.4 2.8 2.1 2.2 2 6 5.6 2.6 3.4",
    "1u9.1 h.1 hs.d 3bw 1.1 u.2 3.1 s6 1buy 2hg.1 1"⟩,
  ⟨["Grek", "Greek"],
    "og.3 1.2 2.3 1 4 1 1.2 1 1.j 1.1q e.f 4yu.4 1e.4 4.4 2c 8w.l 2.5 2.11 2.5 2.7 1 1 1 1.u
    2.1g 1.e 1.d 2.5 1.i 2.2 1.8 87 rb2 gyi.26 h 155r.1x",
    "53 g8.1 2 1 1 a 1a 2 1a 56z.1 ij"⟩,
  ⟨["Gujr", "Gujarati"],
    "22p.2 1.8 1.2 1.l 1.6 1.1 1.4 2.9 1.2 1.2 2 f.3 2.b 7.6",
    "1u9.1 h.1 vd6.9"⟩,
  ⟨["Gong", "Gunjala_Gondi"],
    "1kdc.5 1.1 1.10 1.1 1.5 7.9",
    "53 1po.1"⟩,
  ⟨["Guru", "Gurmukhi"],
    "1z5.2 1.5 4.1 2.l 1.6 1.1 1.1 1.1 2 1.4 4.1 2.2 3 7.3 1 7.g",
    "1u9.1 h.1 vd6.9"⟩,
  ⟨["Gukh", "Gurung_Khema"],
    "1xq8.1l",
    "1ut"⟩,
  ⟨["Hani", "Han"],
    "96o.p 1.2g c.5x 1b 1 p.8 e.3 qs.533 1s.g73 hkw.a5 2.2x n48.1 c.6 sg9.wyn w.3dp 2.4gd 2.5rk
    f.h9 1wi.f1 15u.3t6 5.6jt",
    "53 9bs.f 1.2 2 1.9 1.c a.3 2 6 4.3 57 44.f w.11 9 1c.13 1k.1c f.b 1f 2g.o a.4 2o.u mpt.7
    h8d.1 7u.4 15ve.h 63i.1"⟩,
  ⟨["Hang", "Hangul"],
    "3cw.73 5ym.1 75.2l 35.u 1t.u nhd.s hv.8mb c.m 4.1c 7tw.u 3.5 2.5 2.5 2.2",
    "9hd.2 4.9 1.c g 6 5f 14jt.1 7u.4"⟩,
  ⟨["Rohg", "Hanifi_Rohingya"],
    "1h4w.13 8.9",
    "170 e 3 w 43"⟩,
  ⟨["Hano", "Hanunoo"],
    "4kg.k",
    "4l1.1"⟩,
  ⟨["Hatr", "Hatran"],
    "1gbk.i 1.1 5.4",
    ""⟩,
  ⟨["Hebr", "Hebrew"],
    "13l.1i 8.q 4.5 1cfc.p 1.4 1 1.1 1.1 1.9",
    "lj.1"⟩,
  ⟨["Hira", "Hiragana"],
    "9j5.2d 6.2 23q9.7y i t.2 crx",
    "9hd.2 4.9 1.c g.5 1 4.1 2j.3 3 2i.1 14js.1 7u.4 a 19.1"⟩,
  ⟨["Armi", "Imperial_Aramaic"],
    "1g74.l 1.8",
    ""⟩,
  ⟨["Zinh", "Inherited", "Qaai"],
    "lc.33 7p.1 ck.a q kg.3 3ff.19 2.b dg.2 1.c 1.6 4 6 3.1 5i.1r ek.1 5e.w 309.3 2z.1 14kl.f
    g.d r3 6a 38a 1138.19 2.m f4.2 h.7 2.6 u.3 h45u.6n",
    "lc.e 1.1 1 f.2 7.1 1.1 g 2 i 5 4.c 7p.1 ck.a q kg.1 3ul.2 1.c 1.6 4 6 3.1 5i.1 1i 1 l1
    309.3 2z.1 15j9 38a"⟩,
  ⟨["Phli", "Inscriptional_Pahlavi"],
    "1gtc.i 5.7",
    ""⟩,
  ⟨["Prti", "Inscriptional_Parthian"],
    "1gsg.l 2.7",
    ""⟩,
  ⟨["Java", "Javanese"],
    "xhc.25 2.9 4.1",
    "xjj"⟩,
  ⟨["Kthi", "Kaithi"],
    "1hts.1u a",
    "1uu.9 79d o3i.9"⟩,
  ⟨["Knda", "Kannada"],
    "2gw.c 1.2 1.m 1.9 1.4 2.8 1.2 1.3 7.1 5.2 1.3 2.9 1.2",
    "1u9.1 h.1 3u2 1.1 6 n 1 ri3.5"⟩,
  ⟨["Kana", "Katakana"],
    "9lt.2h 2.2 6o.f 5s.1a 1.2f 14b2.9 1.18 ytu.3 1.6 1.1 1 7z.2 1e e.3",
    "lh t 8v1.2 4.9 1.c g.5 1 4.1 2j.3 3 2i.1 14js.1 7u.4 a 19.1"⟩,
  ⟨["Kawi", "Kawi"],
    "1kow.g 1.14 3.s",
    ""⟩,
  ⟨["Kali", "Kayah_Li"],
    "xds.19 1",
    "xf2"⟩,
  ⟨["Khar", "Kharoshthi"],
    "1gjk.3 1.1 5.7 1.2 1.s 2.2 4.9 7.8",
    ""⟩,
  ⟨["Kits", "Khitan_Small_Script"],
    "20o4 5cr.d1 15",
    ""⟩,
  ⟨["Khmr", "Khmer"],
    "4n4.2l 2.9 6.9 di.v",
    ""⟩,
  ⟨["Khoj", "Khojki"],
    "1i4g.h 1.1a",
    "25i.9 v28.9"⟩,
  ⟨["Sind", "Khudawadi"],
    "1i9c.1m 5.9",
    "1us.1 vd6.9"⟩,
  ⟨["Krai", "Kirat_Rai"],
    "205c.1l",
    ""⟩,
  ⟨["Laoo", "Lao"],
    "2v5.1 1 1.4 1.n 1 1.m 2.4 1 1.6 1.9 2.3",
    ""⟩,
  ⟨["Latn", "Latin"],
    "1t.p 6.p 1b f 5.m 1.u 1.cg 13.4 55n.11 6.1c 5.3 5.c 1.1x 1t.73 a9 d g.c 3x.1 6 r h.14
    253.v o82.2t 3.29 k.e mo.16 1.8 1.3 fpy.6 t6.p 6.p 1lx.5 1.15 1.8 16it.u 6.5",
    "53 ec a 1.2 1 9 1 12.e 1.1 1 f.2 7.1 1.1 12 5 4.c 7p.1 y2.1 1ig 2kc fq 5c 2li nvs.7 fa"⟩,
  ⟨["Lepc", "Lepcha"],
    "5j4.1j 3.e 3.2",
    ""⟩,
  ⟨["Limb", "Limbu"],
    "4xs.u 1.b 4.b 4 3.b",
    "1ut"⟩,
  ⟨["Lina", "Linear_A"],
    "1fr4.8m 9.l a.7",
    "1err.18"⟩,
  ⟨["Linb", "Linear_B"],
    "1ekg.b 1.p 1.i 1.1 1.e 2.d y.3e",
    "1erk.2 4.18 3.8"⟩,
  ⟨["Lisu", "Lisu"],
    "wk0.1b o8g",
    "jg g 8xo.1"⟩,
  ⟨["Lyci", "Lycian"],
    "1f28.s",
    "6e2"⟩,
  ⟨["Lydi", "Lydian"],
    "1gdc.p 5",
    "53 8zd"⟩,
  ⟨["Mahj", "Mahajani"],
    "1hzk.12",
    "53 1po.b vcw.9"⟩,
  ⟨["Maka", "Makasar"],
    "1ko0.o",
    ""⟩,
  ⟨["Mlym", "Malayalam"],
    "2kg.c 1.2 1.1e 1.2 1.5 4.f 2.p",
    "1u9.1 h.1 3uc n ri5.2"⟩,
  ⟨["Mand", "Mandaic"],
    "1mo.r 2",
    "18g"⟩,
  ⟨["Mani", "Manichaean"],
    "1gow.12 4.b",
    "18g"⟩,
  ⟨["Marc", "Marchen"],
    "1k6o.v 2.l 1.d",
    ""⟩,
  ⟨["Gonm", "Masaram_Gondi"],
    "1kao.6 1.1 1.17 3 1.1 1.8 8.9",
    "1us.1"⟩,
  ⟨["Medf", "Medefaidrin"],
    "20cg.2i",
    ""⟩,
  ⟨["Mtei", "Meetei_Mayek"],
    "xr4.m 5l.19 2.9",
    ""⟩,
  ⟨["Mend", "Mende_Kikakui"],
    "2oe8.5g 2.f",
    ""⟩,
  ⟨["Merc", "Meroitic_Cursive"],
    "1ggw.n 4.j 2.19",
    ""⟩,
  ⟨["Mero", "Meroitic_Hieroglyphs"],
    "1gg0.v",
    "6e5"⟩,
  ⟨["Plrd", "Miao"],
    "20hs.22 4.1k 7.g",
    ""⟩,
  ⟨["Modi", "Modi"],
    "1iww.1w b.9",
    "x80.9"⟩,
  ⟨["Mong", "Mongolian"],
    "4qo.1 2 1.j 6.2g 7.16 1e45.c",
    "4qq.1 1 1m1 34h.1 5.3"⟩,
  ⟨["Mroo", "Mro"],
    "1zk0.u 1.9 4.1",
    ""⟩,
  ⟨["Mult", "Multani"],
    "1i80.6 1 1.3 1.e 1.a",
    "21y.9"⟩,
  ⟨["Mymr", "Myanmar"],
    "35s.4f u9s.u 2p.v le8.j",
    "xf2"⟩,
  ⟨["Nbat", "Nabataean"],
    "1g8w.u 8.8",
    ""⟩,
  ⟨["Nagm", "Nag_Mundari"],
    "2nrk.15",
    ""⟩,
  ⟨["Nand", "Nandinagari"],
    "1jmo.7 2.19 2.a",
    "1u9 i.1 ow.9 35l 8 7 rhx.5"⟩,
  ⟨["Talu", "New_Tai_Lue"],
    "51c.17 4.p 6.a 3.1",
    ""⟩,
  ⟨["Newa", "Newa"],
    "1iio.2j 1.4",
    "1u9.1 3uq 1.1 9 6 1 1"⟩,
  ⟨["Nkoo", "Nko"],
    "1j4.1m 2.2",
    "170 e 3 1cta.1"⟩,
  ⟨["Nshu", "Nushu"],
    "20o1 cy6.az",
    ""⟩,
  ⟨["Hmnp", "Nyiakeng_Puachue_Hmong"],
    "2n0g.18 3.d 2.9 4.1",
    ""⟩,
  ⟨["Ogam", "Ogham"],
    "4g0.s",
    ""⟩,
  ⟨["Olck", "Ol_Chiki"],
    "5lc.1b",
    ""⟩,
  ⟨["Onao", "Ol_Onal"],
    "2nyo.16 4",
    "1us.1"⟩,
  ⟨["Hung", "Old_Hungarian"],
    "1h1c.1e d.1e 7.5",
    "6e2 2 2qb f"⟩,
  ⟨["Ital", "Old_Italic"],
    "1f5s.z 9.2",
    ""⟩,
  ⟨["Narb", "Old_North_Arabian"],
    "1gn4.v",
    ""⟩,
  ⟨["Perm", "Old_Permic"],
    "1f80.16",
    "53 g8 5.2 a a7"⟩,
  ⟨["Xpeo", "Old_Persian"],
    "1fa8.z 4.d",
    ""⟩,
  ⟨["Sogo", "Old_Sogdian"],
    "1hj4.13",
    ""⟩,
  ⟨["Sarb", "Old_South_Arabian"],
    "1gm8.v",
    ""⟩,
  ⟨["Orkh", "Old_Turkic"],
    "1gxs.20",
    "6e2 2qd"⟩,
  ⟨["Ougr", "Old_Uyghur"],
    "1hm8.p",
    "18g 1fht"⟩,
  ⟨["Orya", "Oriya"],
    "269.2 1.7 2.1 2.l 1.6 1.1 1.4 2.8 2.1 2.2 7.2 4.1 1.4 2.h",
    "1u9.1 h.1 3uc n"⟩,
  ⟨["Osge", "Osage"],
    "1fhs.z 4.z",
    "ld 2 6 24"⟩,
  ⟨["Osma", "Osmanya"],
    "1fgg.t 2.9",
    ""⟩,
  ⟨["Hmng", "Pahawh_Hmong"],
    "1zpc.1x a.9 1.6 1.k 5.i",
    ""⟩,
  ⟨["Palm", "Palmyrene"],
    "1g80.v",
    ""⟩,
  ⟨["Pauc", "Pau_Cin_Hau"],
    "1juo.1k",
    ""⟩,
  ⟨["Phag", "Phags_Pa"],
    "x8g.1j",
    "4qq.1 1 1m1 34i"⟩,
  ⟨["Phnx", "Phoenician"],
    "1gcg.r 3",
    ""⟩,
  ⟨["Phlp", "Psalter_Pahlavi"],
    "1gu8.h 7.3 c.6",
    "18g"⟩,
  ⟨["Rjng", "Rejang"],
    "xf4.z b",
    ""⟩,
  ⟨["Runr", "Runic"],
    "4gw.22 3.a",
    "4iz.2"⟩,
  ⟨["Samr", "Samaritan"],
    "1kw.19 2.e",
    "94h"⟩,
  ⟨["Saur", "Saurashtra"],
    "xa8.1x 8.b",
    ""⟩,
  ⟨["Shrd", "Sharada"],
    "1i0w.2n 1vk.7",
    "1u9 3ut 1 2.1 2 9 2 ria.5 2"⟩,
  ⟨["Shaw", "Shavian"],
    "1ff4.1b",
    "53"⟩,
  ⟨["Sidd", "Siddham"],
    "1itc.1h 2.11",
    ""⟩,
  ⟨["Sidt", "Sidetic"],
    "1ge8.p",
    ""⟩,
  ⟨["Sgnw", "SignWriting"],
    "2l8g.i3 f.4 1.e",
    ""⟩,
  ⟨["Sinh", "Sinhala"],
    "2o1.2 1.h 3.n 1.8 1 2.6 3 4.5 1 1.7 6.9 2.2 1fcc.j",
    "1us.1 3v0"⟩,
  ⟨["Sogd", "Sogdian"],
    "1hkg.15",
    "18g"⟩,
  ⟨["Sora", "Sora_Sompeng"],
    "1hw0.o 7.9",
    ""⟩,
  ⟨["Soyo", "Soyombo"],
    "1jrk.2a",
    ""⟩,
  ⟨["Sund", "Sundanese"],
    "5fk.1r 74.7",
    ""⟩,
  ⟨["Sunu", "Sunuwar"],
    "1k1s.x e.9",
    "lc.1 1 9 2 s 3"⟩,
  ⟨["Sylo", "Syloti_Nagri"],
    "x6o.18",
    "1us.1 3k.9"⟩,
  ⟨["Syrc", "Syriac"],
    "1ds.d 1.1n 2.2 7k.a",
    "lf.1 2.1 1 o.2 7.1 1.1 ka e.1 2 w a.a q 4nb 1"⟩,
  ⟨["Tglg", "Tagalog"],
    "4jk.l 9",
    "4l1.1"⟩,
  ⟨["Tagb", "Tagbanwa"],
    "4m8.c 1.2 1.1",
    "4l1.1"⟩,
  ⟨["Tale", "Tai_Le"],
    "500.t 2.4",
    "lc.1 5.1 3 2lv.9"⟩,
  ⟨["Lana", "Tai_Tham"],
    "55s.1q 1.s 2.a 6.9 6.d",
    ""⟩,
  ⟨["Tavt", "Tai_Viet"],
    "xog.1u o.4",
    ""⟩,
  ⟨["Tayo", "Tai_Yo"],
    "2o5c.u 1.l 8.1",
    ""⟩,
  ⟨["Takr", "Takri"],
    "1j0g.1l 6.9",
    "1us.1 vd6.9"⟩,
  ⟨["Taml", "Tamil"],
    "29u.1 1.5 3.2 1.3 3.1 1 1.1 3.1 3.2 3.b 4.4 3.2 1.3 2 6 e.k 1ih1.1d d",
    "1u9.1 h.1 3uc ro8 ky5 1 1j.1"⟩,
  ⟨["Tnsa", "Tangsa"],
    "1zlc.26 1.9",
    ""⟩,
  ⟨["Tang", "Tangut"],
    "20o0 v.5bz e8.u 2p.36",
    "9gw.f dr"⟩,
  ⟨["Telu", "Telugu"],
    "2dc.c 1.2 1.m 1.f 2.8 1.2 1.3 7.1 1.2 1.1 2.3 2.9 7.8",
    "1u9.1 h.1 3u7.1 1 1 n"⟩,
  ⟨["Thaa", "Thaana"],
    "1hc.1d",
    "170 e.1 2 1s.9 1cw8 a"⟩,
  ⟨["Thai", "Thai"],
    "2rl.1l 5.r",
    "jg q 17 19"⟩,
  ⟨["Tibt", "Tibetan"],
    "2yo.1z 1.z 4.12 1.z 1.e 1.6 4.1",
    "9hk.3"⟩,
  ⟨["Tfng", "Tifinagh"],
    "8xc.1j 7.1 e",
    "le 1 1.3 p"⟩,
  ⟨["Tirh", "Tirhuta"],
    "1im8.1z 8.9",
    "1u9.1 h.1 3u7 c f ri5.9"⟩,
  ⟨["Todr", "Todhri"],
    "1fpc.1f",
    "ld 2 2 9 1 22"⟩,
  ⟨["Tols", "Tolong_Siki"],
    "1kfk.17 4.9",
    ""⟩,
  ⟨["Toto", "Toto"],
    "2nbk.u",
    "jg"⟩,
  ⟨["Tutg", "Tulu_Tigalari"],
    "1if4.9 1 2 1.11 1.9 1 2 1.3 1.9 1.1 8.1",
    "2jq.9 35u 1 ri3.5 57"⟩,
  ⟨["Ugar", "Ugaritic"],
    "1f9c.t 1",
    ""⟩,
  ⟨["Vaii", "Vai"],
    "wlc.8b",
    ""⟩,
  ⟨["Vith", "Vithkuqi"],
    "1fn4.a 1.e 1.6 1.1 1.a 1.e 1.6 1.1",
    ""⟩,
  ⟨["Wcho", "Wancho"],
    "2ncw.1l 5",
    ""⟩,
  ⟨["Wara", "Warang_Citi"],
    "1jfk.2a c",
    ""⟩,
  ⟨["Yezi", "Yezidi"],
    "1hfk.15 1.2 2.1",
    "170 e 3 1s.9"⟩,
  ⟨["Yiii", "Yi"],
    "vls.wc 3.1i",
    "9hd.1 5.9 2.7 67 14rp.4"⟩,
  ⟨["Zanb", "Zanabazar_Square"],
    "1jpc.1z",
    ""⟩]

end Unicode
end Rulebook
