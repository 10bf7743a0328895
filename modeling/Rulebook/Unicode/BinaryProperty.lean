import Rulebook.Unicode.CharSet

/-!
# Binary properties

A binary property is listed by the general categories whose characters mostly
have it, and by the exceptions: the characters that are in one of these
categories or have the property, but not both.
-/

namespace Rulebook
namespace Unicode

/-- A binary property: its names, the short names of its categories, and the
text of its exceptions. -/
structure BinaryProperty where
  names : List String
  categories : List String
  exceptions : String

/-- The binary properties. -/
def binaryProperties : List BinaryProperty := [
  ⟨["AHex", "ASCII_Hex_Digit"], [],
    "1c.9 7.5 q.5"⟩,
  ⟨["Alpha", "Alphabetic"], ["Ll", "Lm", "Lo", "Lt", "Lu", "Mc", "Mn", "Nl"],
    "lc.1w 1.s 80.4 7d.u 4o 3q.1 9.2 2b.a 4g.8 9 q.1 j 17.2 1o.7 16.9 c.1 8.5 24 g 3.3 2v g 1c
    1p g 32 g 1b.2 1o g 7 3b 32 g 32 g 31.1 g 3g 3g.5 1 2z d.4 1 21.1 r 1 1 4.1 1w 1.1 1q 34
    1.1 ma.2 qc.1 u 3j.1 j.a 9 19.2 1 89.2 84 k.7 2 1c.d 3.a 3.e 2.b 20 f 12.8 1i.1 1m b.1 1v
    48.2 1.k 4 6 2.2 5i.i y.a k0.c 4 3.b qt.1f 1l1.2 3x iy.5 2x.1 n9w c.1 36.1 7o 11 47 r.h
    1l.2 11 2n c 72 1 1g 6t.1 g7m.f g.f r1 6a 1g7.2 4 4l.1 hv.3 b3.2 1y.a 1d.3 5c 15 e 1l.1
    3c.1 1q 24 8.3 2w.1 4y.1 28.1 g o.6 3.4 2h.2 1 e.1 2n 3 n 2r.1 6z.1 3i 3a.1 37 7h.1 76.1 4
    4c 2a.1 i 28.1 bp 76 1.1 29 bt.1 n 44l 6.e 8ux 1xc.4 1n.6 x9 f5k 3mq.19 2.m f2.4 3.5 8.7
    2.6 u.3 44.2 1iz.1i 4.1d 8 e m.4 1.e 1a8.6 af 1p.3 e4.3 72.1 kg.6 31.2 1.2 1k5.p 6.p 6.p
    gxva.6n"⟩,
  ⟨["Bidi_C", "Bidi_Control"], [],
    "17g 54h.1 q.4 1j.3"⟩,
  ⟨["Bidi_M", "Bidi_Mirrored"], ["Pe", "Pf", "Pi", "Ps"],
    "1o 1 6ah.7 80 5c.3 3.5 3 3.1 3.3 1.3 1 1 4.8 5 1.h 5.3 9.1 1 1.7 1.v 2.3 5 9.1 2.i 5.1 9.4
    2.1 4.n 2.f w.1 wu 2.1 3.1 1.2 5.3 5.2 3.3 c5.5 1.d 8 7.5 3 4.4 1.1 6 4 1.2 2.1 a.5 g.i
    1.3 2 1 2 1.3 5.1 6.2 o.1 b.1 4.3 1.1 2.1 4.16 2.7 1.13 5 1 3.4 5.2 4 3.4 1 74 g3 d6.2
    14im.1 5z.1 s.f 2.1 r.1 52 1 16m4 1l 1l 1l 1l"⟩,
  ⟨["CI", "Case_Ignorable"], ["Cf", "Lm", "Me", "Mn", "Sk"],
    "13 6 b 3g jz d3 44 55v.1 a 2 17u3 1q 2 4x 6 b"⟩,
  ⟨["Cased", "Cased"], ["Ll", "Lt", "Lu"],
    "4q f dx.8 7.1 u.4 2o 1g 2o1 2en.1q d y.10 j5 d g.c 5f.v mu.1f 1hu.1 o4e.1 5u 3k.3 3.1 o2.3
    9 i6u 2.2 1.15 1.8 16r9.1p 3b6.p 6.p 6.p"⟩,
  ⟨["CWCF", "Changes_When_Casefolded"], ["Lt", "Lu"],
    "51 15 2x 1h cl 3g d.6 p.1 3 b5 2s8.2d 2.5 1oi.8 ep.1 6c.7 8.7 8.7 a.2 2 a.2 2 16.2 2 7e 4
    3.2 2.2 2 3.4 6 3 3.1 2.1 1 a.1 5 q.f na.p qlc.27 fnk.6 c.4 16ug.p q.p q.p q 1.1 2 2.1 2.3
    1.7 q.p q.1 1.3 2.7 1.6 r.1 1.3 1.4 1 3.6 r.p q.p q.p q.p q.p q.p u.o x.o x.o x.o x.o x"⟩,
  ⟨["CWCM", "Changes_When_Casemapped"], ["Ll", "Lt", "Lu"],
    "8o 2c s.1 e 3 2q i.5 r 2 1 2.2 2 4 5.1 1 2.1 1.6 1.1 1 2.2 6.4 1 2.6 2.g 45 3w.2 13 9v 13
    4mv.17 1r.c 2.2 1.f 1.b 75.1 1 gy 4 2.9 1 3.4 6 3 3.1 1.2 1.1 4 2.3 5.4 m.v mu.1f 1hj 2
    2.4 2w o5n.1 1r.7 l 6 p 22 mt.y 1.6 5.8 1ml3.2c 1.1y 1.1 2 2.1 2.3 1.b 1 1.6 1.1s 1.3 2.7
    1.6 1.r 1.3 1.4 1 3.6 1.9f 2.o 1.o 1.u 1.o 1.u 1.o 1.u 1.o 1.u 1.o 1.7 1f8.9 1.j 6.5"⟩,
  ⟨["CWL", "Changes_When_Lowercased"], ["Lt", "Lu"],
    "r6.2 5rh 4 3.2 2.2 2 3.4 6 3 3.1 2.1 1 a.1 5 q.f na.p 2d68.p q.p q.p q 1.1 2 2.1 2.3 1.7
    q.p q.1 1.3 2.7 1.6 r.1 1.3 1.4 1 3.6 r.p q.p q.p q.p q.p q.p u.o x.o x.o x.o x.o x"⟩,
  ⟨["CWT", "Changes_When_Titlecased"], ["Ll"],
    "8o 2c s.1 e 3 5 2 2 12 1b i.5 r 2 1 2.2 2 4 5.1 1 2.1 1.6 1.1 1 2.2 6.4 1 2.6 2.g 45 52 9v
    13 287.16 2.2 2dc.17 1r.c 2.2 1.f 1.b 75.1 1 h6 3.1 3 r 4 4 2.1 8.3 12.f nk.p 1hj 2 2.4 2w
    o5n.1 1r.7 l 6 p 22 mt.y 1.6 5.8 1mlt.p q.6 1.h q.p q.3 1 1.6 1.a q.p q.p q.p q.p q.p q.p
    q.p q.p q.r s.o 1.5 q.o 1.5 q.o 1.5 q.o 1.5 q.o 1.5 1 1f8.9 1.j 6.5"⟩,
  ⟨["CWU", "Changes_When_Uppercased"], ["Ll", "Lt"],
    "8o 2c s.1 e 3 2q i.5 r 2 1 2.2 2 4 5.1 1 2.1 1.6 1.1 1 2.2 6.4 1 2.6 2.g 45 52 9v 13
    4mv.17 1r.c 2.2 1.f 1.b 75.1 1 h6 3.1 3 r 4 4 2.1 8.3 12.f nk.p 1hj 2 2.4 2w o5n.1 1r.7 l
    6 p 22 mt.y 1.6 5.8 1mlt.p q.6 1.h q.p q.3 1 1.6 1.a q.p q.p q.p q.p q.p q.p q.p q.p q.r
    s.o 1.5 q.o 1.5 q.o 1.5 q.o 1.5 q.o 1.5 1 1f8.9 1.j 6.5"⟩,
  ⟨["Dash", "Dash"], ["Pd"],
    "6dv 13 f au"⟩,
  ⟨["DI", "Default_Ignorable_Code_Point"], [],
    "4t ip jw 282.1 18z.1 2d.4 1kr.4 q.4 1d.f 3ck 14ez.f 6n 4g 27.8 119j.3 43z.7 h405.35r"⟩,
  ⟨["Dep", "Deprecated"], [],
    "95 10p 1s3 1 1m1.1 1qd.5 jd.1 jh06"⟩,
  ⟨["Dia", "Diacritic"], ["Sk"],
    "53 e0.h 4.b e.4 7 1 h.26 1.7 5.5 h 5 7c.4 5t 1j.18 1 1.1 1.1 1 3n.7 4.1 3q.1 4.1 3.2 1v.q
    2j.a 1m.a y.1 32 f.7 15.9 g.r 1p g 3.3 s 22 g 32 g 32 g 1b.2 1o g 7 3b 32 g 32 g 31.1 g 3g
    33 c.5 1 2z d.4 23.1 r 1 1 4.1 1u.2 1.1 1q 34 1.1 14.1 4.4 p.6 1 a.1 jl.2 qc.1 u 44.a 9
    9n.2 84 k.7 2 1c.e 2.a 3.e 2.b 20 f 12.8 1i.1 1m b.1 1u.1 1s.5 2a.o 4 6 2.2 1e.1q 1c.z 5.b
    11.a 2y7.2 8t e2.5 2x.1 2p n76 c.1 1 s.1 2a.1 11.8 2w 2w 6.1 c 11 47 r.h 1l.3 10 2n c 10
    45.2 1t.3 1f 2t.3 9 3m.1 fn4 43.g gt.f 8w 19.1 n4 wv.5 1.15 1.8 hp.2 4 4l.1 fv.5 12 q.4 b0
    2.2 1y.a 1d.3 5c 15 20.1 3c.1 1q 24 9.2 2w.1 4y.1 28.1 g o.6 3.4 2h.2 1.1 d.1 2n 3 3f.1
    6z.1 3i 3a.1 37 7h.1 76.1 4 4c 2b i 29 bp 76 1.1 29 1t 9z.1 n 44s.e 8ux 1xc.4 1n.6 fo.1
    f6.g 28.1 cn2.3 1.6 1.1 64h.19 2.m f4.2 3.5 8.7 2.6 u.3 2v6.1p 5e.6 af 1p.3 la.1 kg.6 31.2
    1.2 240.4"⟩,
  ⟨["Emoji", "Emoji"], [],
    "z 6 5.9 33 4 68d c 60 m 2i.5 f.1 a7.1 c 4m p.a 4.2 5j 6f.1 a 9 1m.3 1.4 9 2 2.1 2 4 2 1.1
    2 3 3.1 8.2 5 1 5.b b.1 2 1.1 1 i 2.1 i.5 1 1.1 3.1 5 2.1 4.1 b.1 5.1 2 5.1 1 1.1 k.1 5.5
    1.3 2 4 2 2.5 1 2 1 1 6 3 6 a.1 f 2 4 1 4.2 1 b.1 1c.2 9 e e ac.1 cv.2 j.1 1f 4 yi c gp 1
    2fze 5m 4g.1 c.1 e 2.9 23.p 1.1 n k 2.8 l.1 4u.x 2.33 2.1 1.2 2.2a 2.2 1.7a 1.1q b.5 1.n
    7.1 2.7 c 2.3 2 4.1 d.1 2 8.1 9 5.2 c.2 8.2 2 1 4 6 3 6.2d 1c.1x 5.7 2.3 3.9 3 1.1 3 2.9
    6b.b 4 7v.1a 1.9 1.54 34.c 3.a 3.1k 1 4.f 2.b 4.9"⟩,
  ⟨["EComp", "Emoji_Component"], [],
    "z 6 5.9 6ab 5x 17or 1c5y.p e3.4 14g.3 gw30.2n"⟩,
  ⟨["EMod", "Emoji_Modifier"], [],
    "2qrf.4"⟩,
  ⟨["EBase", "Emoji_Modifier_Base"], [],
    "7j1 63 g.3 2iyf 1o.2 2 2.2 39.1 2.a l.i 3 4.2 1.2 7 1 o 5l.1 4 l 4.1 4u.2 3.4 2b g.2 9 b
    fz 2 8.7 6 9.9 2.2 1k 1p.1 1.1 1 h.2 1.c 6d.2 16.8"⟩,
  ⟨["EPres", "Emoji_Presentation"], [],
    "6xm.1 5p.3 3 2 eh.1 l.1 1e.b 17 j d 8.1 h.1 5.1 8 5 l 7.1 1 4 2 7 4.1 s z 1 4.2 1 1p.2 o e
    nv.1 1f 4 2hf2 5m 5a 2.9 23.p 1 o k 2.4 1.2 l.1 4u.w c.8 1.1x 1.l c.16 4.4 c.g 3 3.1y 1
    1.56 2.1q d.3 1.n i q.1 d 2e.2c 1c.1x 6 3.2 2.3 3.3 b.1 7.8 6b.b 4 7v.1a 1.9 1.54 34.c 3.a
    3.1k 1 4.f 2.b 4.9"⟩,
  ⟨["ExtPict", "Extended_Pictographic"], [],
    "4p 4 68d c 60 m 2i.5 f.1 a7.1 c 4m p.a 4.2 5j 6f.1 a 9 1m.3 1.4 9 2 2.1 2 4 2 1.1 2 3 3.1
    8.2 5 1 5.b b.1 2 1.1 1 i 2.1 i.5 1 1.1 3.1 5 2.1 4.1 b.1 5.1 2 5.1 1 1.1 k.1 5.5 1.3 2 4
    2 2.5 1 2 1 1 6 3 6 a.1 f 2 4 1 4.2 1 b.1 1c.2 9 e e ac.1 cv.2 j.1 1f 4 yi c gp 1 2fze
    13.3 2s.b f.1 f e.1 11.9 34.1 c.1 e 2.9 j.1j r.e a k 2.8 1.3 9.m 6.57 2.33 2.1 1.2 2.2a
    2.2 1.3 5.71 1.1q b.5 1.n 7.1 2.7 c 2.3 2 4.1 d.1 2 8.1 9 5.2 c.2 8.2 2 1 4 6 3 6.2d 1c.1x
    5.7 2.g 3 1.5 2.c 62.11 c.3 1k.7 a.5 14.7 u.1 c.3 2.d 9.12 c.1a 1.9 1.54 2g.7 e.41 74.sd"⟩,
  ⟨["Ext", "Extender"], [],
    "53 ew.1 oe c9 hi 3t 2h kw 3j 1tv 1k gz b2 1w 3ux 17.4 2v.1 2l.2 lxy 16e qq m 3t 30 l.1 gor
    1lc.1 157 r 4 xz 85 38.1 du.2 y7 n4 fag.1 ws.1 1 e.1 mdk.1 xd no.2"⟩,
  ⟨["Gr_Base", "Grapheme_Base"], ["Ll", "Lm", "Lo", "Lt", "Lu", "Mc", "Nd", "Nl", "No", "Pc", "Pd", "Pe", "Pf", "Pi", "Po", "Ps", "Sc", "Sk", "Sm", "So", "Zs"],
    "1xa o 9y o 2u o 6g 1 4.1 1.1 9.1 2v o 3b f 1th u sg 5 1 5.1 2t 1z.1 3zu.1 nxf 30 gyl.1 3kw
    38 7c e 9 2o 9 2 1.2 5 68 c 6p 7a hl c 16r fxq.1 j8z.1 6.5"⟩,
  ⟨["Gr_Ext", "Grapheme_Extend"], ["Me", "Mn"],
    "1xa o 9y o 2u o 6g 1 4.1 1.1 9.1 2v o 3b f 1th u sg 5 1 5.1 2t 1z.1 t4 36p.1 nxf 30 gyl.1
    3kw 38 7c e 9 2o 9 2 1.2 5 68 c 6p 7a hl c 16r fxq.1 j8z.1 6.5 h419.2n"⟩,
  ⟨["Hex", "Hex_Digit"], [],
    "1c.9 7.5 q.5 1eax.9 7.5 q.5"⟩,
  ⟨["IDSB", "IDS_Binary_Operator"], [],
    "9gw.1 2.9 dt"⟩,
  ⟨["IDST", "IDS_Trinary_Operator"], [],
    "9gy.1"⟩,
  ⟨["IDC", "ID_Continue"], ["Ll", "Lm", "Lo", "Lt", "Lu", "Mc", "Mn", "Nd", "Nl", "Pc"],
    "53 jz 34x.8 19k 181.1 7e l 2kg h7.1 2m 14rt"⟩,
  ⟨["IDS", "ID_Start"], ["Ll", "Lm", "Lo", "Lt", "Lu", "Nl"],
    "4ud.1 1ox l 2kg h7.1"⟩,
  ⟨["Ideo", "Ideographic"], [],
    "9hi.1 p.8 e.2 qt.533 1s.g73 hkw.a5 2.2x n4a d.4 9.5p1 15.v 2p.36 70d.az f7o.wyn w.3dp
    2.4gd 2.5rk f.h9 1wi.f1 15u.3t6 5.6jt"⟩,
  ⟨["Join_C", "Join_Control"], [],
    "6bw.1"⟩,
  ⟨["LOE", "Logical_Order_Exception"], [],
    "2tc.4 3f.4 25s.2 2 smy.1 2 1.1"⟩,
  ⟨["Lower", "Lowercase"], ["Ll"],
    "4q f dx.8 7.1 u.4 2o 1g 2o1 2en.1q d y.10 j5 d g.c 5v.f nk.p 1hu.1 o4e.1 5u 3k.3 3.1 o2.3
    9 i6u 2.2 1.15 1.8 16r9.1p"⟩,
  ⟨["Math", "Math"], ["Sm"],
    "2m oh.2 2 q.1 2.1 5k0 r.2 b w.3 o.1 e.1 1t.c 4 3.1 4.4 i 4 2.9 1 3.4 6 3.1 2.1 1.2 1.5 3.3
    5.4 23.4 2.3 1.1 1.1 1 1.4 2.1 4.1 4.h 2.1 1 1.6 1 6.1 82.3 4o.1 1 o h cd.1 c.8 5.4 5.1
    2.1 3.4 e 1 2.5 o.1 1l 1 t.3 9.1 9i.1 v.9 b7.l 1r.3 w.1 15yb 1 4 5v 1 160x.2c 1.1y 1.1 2
    2.1 2.3 1.b 1 1.6 1.1s 1.3 2.7 1.6 1.r 1.3 1.4 1 3.6 1.9f 2.o 1.o 1.u 1.o 1.u 1.o 1.u 1.o
    1.u 1.o 1.7 2.1d 4cg.3 1.q 1.1 1 2 1.9 1.3 1 1 6 4 1 1 1.2 1.1 1 2 1 1 1 1 1.1 1 2.3 1.6
    1.3 1.3 1 1.9 1.g 5.2 1.4 1.g"⟩,
  ⟨["NChar", "Noncharacter_Code_Point"], [],
    "1e4w.v em.1 1eke.1 1eke.1 1eke.1 1eke.1 1eke.1 1eke.1 1eke.1 1eke.1 1eke.1 1eke.1 1eke.1
    1eke.1 1eke.1 1eke.1 1eke.1 1eke.1"⟩,
  ⟨["Pat_Syn", "Pattern_Syntax"], [],
    "x.e a.6 q.3 1 q.3 y.6 1 1.1 1 1.1 4 4 3 n v 654.n 8.e 2.i 1.9 8h.jz 4g.hh u.vf e8.3j ap.2
    4.o f 14i5.1 79.1"⟩,
  ⟨["Pat_WS", "Pattern_White_Space"], [],
    "9.4 i 2s 688.1 o.1"⟩,
  ⟨["QMark", "Quotation_Mark"], [],
    "y 4 3n f 670.7 p.1 2rr cp.3 d.2 14pt.3 59 4 2i.1"⟩,
  ⟨["Radical", "Radical"], [],
    "96o.p 1.2g c.5x"⟩,
  ⟨["RI", "Regional_Indicator"], [],
    "2qcm.p"⟩,
  ⟨["STerm", "Sentence_Terminal"], [],
    "x c g 11l 43.2 50 17.2 6u 1p 1 3.1 85.1 1d0.1 ly 4.1 lh 5i.1 4d.1 19 5 8q.1 9u.3 4i.1 a.1
    2.1 t.2 57.1 1t.1 pw n.1 9.2 2i7.2 8i d m.1 bx n3w 7i.1 6b 3 am.1 2e.1 2n 48.1 43.2 40.1
    6x g86 2.1 1n 3.1 4p c g 1t 25w.1 zh.4 18.3 59.1 39.3 3j.2 3l.1 6 g.1 2g.1 1.1 30 8a.1
    39.1 ad.1 5.e 2x.1 6x.2 ed 1 6z.1 2f.1 bo.1 j8.1 22.1 euh.1 3p 1t.1 b fd.1 88 feu 5wo"⟩,
  ⟨["SD", "Soft_Dotted"], [],
    "2x.1 5g 7t u 1g k 8w 2q 1 4y1 1f d 3 3o 4d bp 5y.1 27m 2bol.1 1e.1 1e.1 1e.1 1e.1 1e.1
    1e.1 1e.1 1e.1 1e.1 1e.1 1e.1 1e.1 1om 8h.1 q"⟩,
  ⟨["Term", "Terminal_Punctuation"], [],
    "x a 1 b.1 3 n2 8 e9 1l 20 e 1.2 50 17.a 1 6j.1 1i.5 1.7 v 79.1 z8.1 4s 4.5 8n.1 lx.7 lh
    3g.2 1z.1 4d.2 3 13.3 2.1 8q.1 9u.3 4i.1 a.1 1.2 t.2 57.4 1q.1 pw n.1 9.2 2i7.2 8i d 4 a
    1.1 3.1 bw.1 n3v.1 7h.2 6b.4 am.1 2e.1 2n 47.2 43.2 3j g.1 6x g86 2.1 1l.2 1.3 4p a 1 b.1
    3 1t 2 u2 1c w6 5j 8m.1 48.5 1w.5 2h.3 qg.4 18.3 59.6 34.3 3j.2 3l.1 6 g.1 2g.4 30 8a.1
    39.2 c.1 9y.3 3.e 2x.1 6x.2 ed 1 6z.1 2f.1 4.1 bi.2 19 hx.1 22.1 10r.4 dtl.1 3p 1t.2 a
    fd.1 87.1 feu 5wn.3"⟩,
  ⟨["UIdeo", "Unified_Ideograph"], [],
    "a9s.533 1s.g73 hse.1 1 1.1 a 1 1.1 2.2 1fpy.wyn w.3dp 2.4gd 2.5rk f.h9 3he.3t6 5.6jt"⟩,
  ⟨["Upper", "Uppercase"], ["Lu"],
    "6lc.f na.p 2ixs.p 6.p 6.p"⟩,
  ⟨["VS", "Variation_Selector"], [],
    "4qz.2 1 19f4.f i9yo.6n"⟩,
  ⟨["WSpace", "White_Space", "Space"], ["Zs"],
    "9.4 3b 68y.1"⟩,
  ⟨["XIDC", "XID_Continue"], ["Ll", "Lm", "Lo", "Lt", "Lu", "Mc", "Mn", "Nd", "Nl", "Pc"],
    "53 jm c 34x.8 19k 181.1 7e l 2kg jv 146a.5 ba.1 38 1 1 1 1 1 1 1 6e"⟩,
  ⟨["XIDS", "XID_Start"], ["Ll", "Lm", "Lo", "Lt", "Lu", "Nl"],
    "oq 248 3j 1xt.1 1ox l 2kg 14q6.5 ba.1 38 1 1 1 1 1 1 1 7z.1"⟩]

end Unicode
end Rulebook
