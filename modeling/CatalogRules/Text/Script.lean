import CatalogRules.Text.Category

/-! # Scripts

Every code point belongs to one script, which has a name of four letters and a long name. The table
`runs` lists the scripts in order of the code points: an optional length and the short name for each
run. -/

namespace CatalogRules.Text.Script

/-- The short and long names of the scripts. -/
def names : List (String × String) :=
  [("adlm", "adlam"), ("aghb", "caucasianalbanian"), ("ahom", "ahom"),
   ("arab", "arabic"), ("armi", "imperialaramaic"), ("armn", "armenian"),
   ("avst", "avestan"), ("bali", "balinese"), ("bamu", "bamum"),
   ("bass", "bassavah"), ("batk", "batak"), ("beng", "bengali"),
   ("bhks", "bhaiksuki"), ("bopo", "bopomofo"), ("brah", "brahmi"),
   ("brai", "braille"), ("bugi", "buginese"), ("buhd", "buhid"),
   ("cakm", "chakma"), ("cans", "canadianaboriginal"), ("cari", "carian"),
   ("cham", "cham"), ("cher", "cherokee"), ("chrs", "chorasmian"),
   ("copt", "coptic"), ("cpmn", "cyprominoan"), ("cprt", "cypriot"),
   ("cyrl", "cyrillic"), ("deva", "devanagari"), ("diak", "divesakuru"),
   ("dogr", "dogra"), ("dsrt", "deseret"), ("dupl", "duployan"),
   ("egyp", "egyptianhieroglyphs"), ("elba", "elbasan"), ("elym", "elymaic"),
   ("ethi", "ethiopic"), ("geor", "georgian"), ("glag", "glagolitic"),
   ("gong", "gunjalagondi"), ("gonm", "masaramgondi"), ("goth", "gothic"),
   ("gran", "grantha"), ("grek", "greek"), ("gujr", "gujarati"),
   ("guru", "gurmukhi"), ("hang", "hangul"), ("hani", "han"),
   ("hano", "hanunoo"), ("hatr", "hatran"), ("hebr", "hebrew"),
   ("hira", "hiragana"), ("hluw", "anatolianhieroglyphs"), ("hmng", "pahawhhmong"),
   ("hmnp", "nyiakengpuachuehmong"), ("hung", "oldhungarian"), ("ital", "olditalic"),
   ("java", "javanese"), ("kali", "kayahli"), ("kana", "katakana"),
   ("kawi", "kawi"), ("khar", "kharoshthi"), ("khmr", "khmer"),
   ("khoj", "khojki"), ("kits", "khitansmallscript"), ("knda", "kannada"),
   ("kthi", "kaithi"), ("lana", "taitham"), ("laoo", "lao"),
   ("latn", "latin"), ("lepc", "lepcha"), ("limb", "limbu"),
   ("lina", "lineara"), ("linb", "linearb"), ("lisu", "lisu"),
   ("lyci", "lycian"), ("lydi", "lydian"), ("mahj", "mahajani"),
   ("maka", "makasar"), ("mand", "mandaic"), ("mani", "manichaean"),
   ("marc", "marchen"), ("medf", "medefaidrin"), ("mend", "mendekikakui"),
   ("merc", "meroiticcursive"), ("mero", "meroitichieroglyphs"), ("mlym", "malayalam"),
   ("modi", "modi"), ("mong", "mongolian"), ("mroo", "mro"),
   ("mtei", "meeteimayek"), ("mult", "multani"), ("mymr", "myanmar"),
   ("nagm", "nagmundari"), ("nand", "nandinagari"), ("narb", "oldnortharabian"),
   ("nbat", "nabataean"), ("newa", "newa"), ("nkoo", "nko"),
   ("nshu", "nushu"), ("ogam", "ogham"), ("olck", "olchiki"),
   ("orkh", "oldturkic"), ("orya", "oriya"), ("osge", "osage"),
   ("osma", "osmanya"), ("ougr", "olduyghur"), ("palm", "palmyrene"),
   ("pauc", "paucinhau"), ("perm", "oldpermic"), ("phag", "phagspa"),
   ("phli", "inscriptionalpahlavi"), ("phlp", "psalterpahlavi"), ("phnx", "phoenician"),
   ("plrd", "miao"), ("prti", "inscriptionalparthian"), ("rjng", "rejang"),
   ("rohg", "hanifirohingya"), ("runr", "runic"), ("samr", "samaritan"),
   ("sarb", "oldsoutharabian"), ("saur", "saurashtra"), ("sgnw", "signwriting"),
   ("shaw", "shavian"), ("shrd", "sharada"), ("sidd", "siddham"),
   ("sind", "khudawadi"), ("sinh", "sinhala"), ("sogd", "sogdian"),
   ("sogo", "oldsogdian"), ("sora", "sorasompeng"), ("soyo", "soyombo"),
   ("sund", "sundanese"), ("sylo", "sylotinagri"), ("syrc", "syriac"),
   ("tagb", "tagbanwa"), ("takr", "takri"), ("tale", "taile"),
   ("talu", "newtailue"), ("taml", "tamil"), ("tang", "tangut"),
   ("tavt", "taiviet"), ("telu", "telugu"), ("tfng", "tifinagh"),
   ("tglg", "tagalog"), ("thaa", "thaana"), ("thai", "thai"),
   ("tibt", "tibetan"), ("tirh", "tirhuta"), ("tnsa", "tangsa"),
   ("toto", "toto"), ("ugar", "ugaritic"), ("vaii", "vai"),
   ("vith", "vithkuqi"), ("wara", "warangciti"), ("wcho", "wancho"),
   ("xpeo", "oldpersian"), ("xsux", "cuneiform"), ("yezi", "yezidi"),
   ("yiii", "yi"), ("zanb", "zanabazarsquare"), ("zinh", "inherited"),
   ("zyyy", "common"), ("zzzz", "unknown")]

/-- The runs of code points of one script, from zero on. -/
def runs : String :=
  ("65Zyyy26Latn6Zyyy26Latn47ZyyyLatn15ZyyyLatn5Zyyy23LatnZyyy31LatnZyyy449Latn39Zyyy5Latn5Zyyy" ++
    "2Bopo20Zyyy112Zinh4GrekZyyy3Grek2Zzzz4GrekZyyyGrek4ZzzzGrekZyyyGrekZyyy3GrekZzzzGrekZzzz20G" ++
    "rekZzzz63Grek14Copt16Grek133Cyrl2Zinh169CyrlZzzz38Armn2Zzzz50Armn2Zzzz3ArmnZzzz55Hebr8Zzzz2" ++
    "7Hebr4Zzzz6Hebr11Zzzz5ArabZyyy6ArabZyyy14ArabZyyy3ArabZyyy32ArabZyyy10Arab11Zinh26ArabZinh1" ++
    "08ArabZyyy34Arab14SyrcZzzz60Syrc2Zzzz3Syrc48Arab50Thaa14Zzzz59Nkoo2Zzzz3Nkoo46Samr2Zzzz15Sa" ++
    "mrZzzz28Mand2ZzzzMandZzzz11Syrc5Zzzz31ArabZzzz2Arab6Zzzz74ArabZyyy29Arab81Deva4Zinh15Deva2Z" ++
    "yyy26Deva4BengZzzz8Beng2Zzzz2Beng2Zzzz22BengZzzz7BengZzzzBeng3Zzzz4Beng2Zzzz9Beng2Zzzz2Beng" ++
    "2Zzzz4Beng8ZzzzBeng4Zzzz2BengZzzz5Beng2Zzzz25Beng2Zzzz3GuruZzzz6Guru4Zzzz2Guru2Zzzz22GuruZz" ++
    "zz7GuruZzzz2GuruZzzz2GuruZzzz2Guru2ZzzzGuruZzzz5Guru4Zzzz2Guru2Zzzz3Guru3ZzzzGuru7Zzzz4Guru" ++
    "ZzzzGuru7Zzzz17Guru10Zzzz3GujrZzzz9GujrZzzz3GujrZzzz22GujrZzzz7GujrZzzz2GujrZzzz5Gujr2Zzzz1" ++
    "0GujrZzzz3GujrZzzz3Gujr2ZzzzGujr15Zzzz4Gujr2Zzzz12Gujr7Zzzz7GujrZzzz3OryaZzzz8Orya2Zzzz2Ory" ++
    "a2Zzzz22OryaZzzz7OryaZzzz2OryaZzzz5Orya2Zzzz9Orya2Zzzz2Orya2Zzzz3Orya7Zzzz3Orya4Zzzz2OryaZz" ++
    "zz5Orya2Zzzz18Orya10Zzzz2TamlZzzz6Taml3Zzzz3TamlZzzz4Taml3Zzzz2TamlZzzzTamlZzzz2Taml3Zzzz2T" ++
    "aml3Zzzz3Taml3Zzzz12Taml4Zzzz5Taml3Zzzz3TamlZzzz4Taml2ZzzzTaml6ZzzzTaml14Zzzz21Taml5Zzzz13T" ++
    "eluZzzz3TeluZzzz23TeluZzzz16Telu2Zzzz9TeluZzzz3TeluZzzz4Telu7Zzzz2TeluZzzz3Telu2ZzzzTelu2Zz" ++
    "zz4Telu2Zzzz10Telu7Zzzz9Telu13KndaZzzz3KndaZzzz23KndaZzzz10KndaZzzz5Knda2Zzzz9KndaZzzz3Knda" ++
    "Zzzz4Knda7Zzzz2Knda6Zzzz2KndaZzzz4Knda2Zzzz10KndaZzzz3Knda12Zzzz13MlymZzzz3MlymZzzz51MlymZz" ++
    "zz3MlymZzzz6Mlym4Zzzz16Mlym2Zzzz26MlymZzzz3SinhZzzz18Sinh3Zzzz24SinhZzzz9SinhZzzzSinh2Zzzz7" ++
    "Sinh3ZzzzSinh4Zzzz6SinhZzzzSinhZzzz8Sinh6Zzzz10Sinh2Zzzz3Sinh12Zzzz58Thai4ZzzzZyyy28Thai37Z" ++
    "zzz2LaooZzzzLaooZzzz5LaooZzzz24LaooZzzzLaooZzzz23Laoo2Zzzz5LaooZzzzLaooZzzz7LaooZzzz10Laoo2" ++
    "Zzzz4Laoo32Zzzz72TibtZzzz36Tibt4Zzzz39TibtZzzz36TibtZzzz15TibtZzzz7Tibt4Zyyy2Tibt37Zzzz160M" ++
    "ymr38GeorZzzzGeor5ZzzzGeor2Zzzz43GeorZyyy4Geor256Hang73EthiZzzz4Ethi2Zzzz7EthiZzzzEthiZzzz4" ++
    "Ethi2Zzzz41EthiZzzz4Ethi2Zzzz33EthiZzzz4Ethi2Zzzz7EthiZzzzEthiZzzz4Ethi2Zzzz15EthiZzzz57Eth" ++
    "iZzzz4Ethi2Zzzz67Ethi2Zzzz32Ethi3Zzzz26Ethi6Zzzz86Cher2Zzzz6Cher2Zzzz640Cans29Ogam3Zzzz75Ru" ++
    "nr3Zyyy11Runr7Zzzz22Tglg9ZzzzTglg21Hano2Zyyy9Zzzz20Buhd12Zzzz13TagbZzzz3TagbZzzz2Tagb12Zzzz" ++
    "94Khmr2Zzzz10Khmr6Zzzz10Khmr6Zzzz2Mong2ZyyyMongZyyy20Mong6Zzzz89Mong7Zzzz43Mong5Zzzz70Cans1" ++
    "0Zzzz31LimbZzzz12Limb4Zzzz12Limb4ZzzzLimb3Zzzz12Limb30Tale2Zzzz5Tale11Zzzz44Talu4Zzzz26Talu" ++
    "6Zzzz11Talu3Zzzz2Talu32Khmr28Bugi2Zzzz2Bugi63LanaZzzz29Lana2Zzzz11Lana6Zzzz10Lana6Zzzz14Lan" ++
    "a2Zzzz31Zinh49Zzzz77Bali3Zzzz47BaliZzzz64Sund52Batk8Zzzz4Batk56Lepc3Zzzz15Lepc3Zzzz3Lepc48O" ++
    "lck9Cyrl7Zzzz43Geor2Zzzz3Geor8Sund8Zzzz3ZinhZyyy13ZinhZyyy7Zinh4ZyyyZinh6ZyyyZinh3Zyyy2Zinh" ++
    "Zyyy5Zzzz38Latn5GrekCyrl49Latn5Grek4Latn5Grek13LatnCyrl70LatnGrek64Zinh256Latn22Grek2Zzzz6G" ++
    "rek2Zzzz38Grek2Zzzz6Grek2Zzzz8GrekZzzzGrekZzzzGrekZzzzGrekZzzz31Grek2Zzzz53GrekZzzz15GrekZz" ++
    "zz14Grek2Zzzz6GrekZzzz19Grek2Zzzz3GrekZzzz9GrekZzzz12Zyyy2Zinh87ZyyyZzzz11ZyyyLatn2Zzzz11Zy" ++
    "yyLatn15ZyyyZzzz13Latn3Zzzz33Zyyy15Zzzz33Zinh15Zzzz38ZyyyGrek3Zyyy2Latn6ZyyyLatn27ZyyyLatn1" ++
    "7Zyyy41Latn3Zyyy4Zzzz663Zyyy25Zzzz11Zyyy21Zzzz928Zyyy256Brai628Zyyy2Zzzz32ZyyyZzzz105Zyyy96" ++
    "Glag32Latn116Copt5Zzzz7Copt38GeorZzzzGeor5ZzzzGeor2Zzzz56Tfng7Zzzz2Tfng14ZzzzTfng23Ethi9Zzz" ++
    "z7EthiZzzz7EthiZzzz7EthiZzzz7EthiZzzz7EthiZzzz7EthiZzzz7EthiZzzz7EthiZzzz32Cyrl94Zyyy34Zzzz" ++
    "26HaniZzzz89Hani12Zzzz214Hani26Zzzz12Zyyy4Zzzz5ZyyyHaniZyyyHani25Zyyy9Hani4Zinh2Hang8Zyyy4H" ++
    "ani4ZyyyZzzz86Hira2Zzzz2Zinh2Zyyy3HiraZyyy90Kana2Zyyy3Kana5Zzzz43BopoZzzz94HangZzzz16Zyyy32" ++
    "Bopo36Zyyy12Zzzz16Kana31HangZzzz64Zyyy31Hang81Zyyy47KanaZyyy88Kana168Zyyy6592Hani64Zyyy2099" ++
    "2Hani1165Yiii3Zzzz55Yiii9Zzzz48Lisu300Vaii20Zzzz96Cyrl88Bamu8Zzzz34Zyyy102Latn3Zyyy64Latn5Z" ++
    "zzz2LatnZzzzLatnZzzz5Latn24Zzzz14Latn45Sylo3Zzzz10Zyyy6Zzzz56Phag8Zzzz70Saur8Zzzz12Saur6Zzz" ++
    "z32Deva46KaliZyyyKali36Rjng11ZzzzRjng29Hang3Zzzz78JavaZzzzZyyy10Java4Zzzz2Java31MymrZzzz55C" ++
    "ham9Zzzz14Cham2Zzzz10Cham2Zzzz4Cham32Mymr67Tavt24Zzzz5Tavt23Mtei10Zzzz6Ethi2Zzzz6Ethi2Zzzz6" ++
    "Ethi9Zzzz7EthiZzzz7EthiZzzz43LatnZyyy9LatnGrek4Latn2Zyyy4Zzzz80Cher46Mtei2Zzzz10Mtei6Zzzz11" ++
    "172Hang12Zzzz23Hang4Zzzz49Hang8452Zzzz366Hani2Zzzz106Hani38Zzzz7Latn12Zzzz5Armn5Zzzz26HebrZ" ++
    "zzz5HebrZzzzHebrZzzz2HebrZzzz2HebrZzzz10Hebr115Arab16Zzzz363Arab2Zyyy80Arab2Zzzz54Arab7Zzzz" ++
    "Arab32Zzzz16Arab16Zinh10Zyyy6Zzzz14Zinh2Cyrl35ZyyyZzzz19ZyyyZzzz4Zyyy4Zzzz5ArabZzzz135Arab2" ++
    "ZzzzZyyyZzzz32Zyyy26Latn6Zyyy26Latn11Zyyy10KanaZyyy45Kana2Zyyy31Hang3Zzzz6Hang2Zzzz6Hang2Zz" ++
    "zz6Hang2Zzzz3Hang3Zzzz7ZyyyZzzz7Zyyy10Zzzz5Zyyy2Zzzz12LinbZzzz26LinbZzzz19LinbZzzz2LinbZzzz" ++
    "15Linb2Zzzz14Linb34Zzzz123Linb5Zzzz3Zyyy4Zzzz45Zyyy3Zzzz9Zyyy79GrekZzzz13Zyyy3ZzzzGrek47Zzz" ++
    "z45ZyyyZinh130Zzzz29Lyci3Zzzz49Cari15ZzzzZinh27Zyyy4Zzzz36Ital9Zzzz3Ital27Goth5Zzzz43Perm5Z" ++
    "zzz30UgarZzzzUgar36Xpeo4Zzzz14Xpeo42Zzzz80Dsrt48Shaw30Osma2Zzzz10Osma6Zzzz36Osge4Zzzz36Osge" ++
    "4Zzzz40Elba8Zzzz52Aghb11ZzzzAghb11VithZzzz15VithZzzz7VithZzzz2VithZzzz11VithZzzz15VithZzzz7" ++
    "VithZzzz2Vith67Zzzz311Lina9Zzzz22Lina10Zzzz8Lina24Zzzz6LatnZzzz42LatnZzzz9Latn69Zzzz6Cprt2Z" ++
    "zzzCprtZzzz44CprtZzzz2Cprt3ZzzzCprt2ZzzzCprt22ArmiZzzz9Armi32Palm31Nbat8Zzzz9Nbat48Zzzz19Ha" ++
    "trZzzz2Hatr5Zzzz5Hatr28Phnx3ZzzzPhnx26Lydi5ZzzzLydi64Zzzz32Mero24Merc4Zzzz20Merc2Zzzz46Merc" ++
    "4KharZzzz2Khar5Zzzz8KharZzzz3KharZzzz29Khar2Zzzz3Khar4Zzzz10Khar7Zzzz9Khar7Zzzz32Sarb32Narb" ++
    "32Zzzz39Mani4Zzzz12Mani9Zzzz54Avst3Zzzz7Avst22Prti2Zzzz8Prti19Phli5Zzzz8Phli18Phlp7Zzzz4Phl" ++
    "p12Zzzz7Phlp80Zzzz73Orkh55Zzzz51Hung13Zzzz51Hung7Zzzz6Hung40Rohg8Zzzz10Rohg294Zzzz31ArabZzz" ++
    "z42YeziZzzz3Yezi2Zzzz2Yezi75Zzzz3Arab40Sogo8Zzzz42Sogd22Zzzz26Ougr38Zzzz28Chrs20Zzzz23Elym9" ++
    "Zzzz78Brah4Zzzz36Brah9ZzzzBrah67Kthi10ZzzzKthi2Zzzz25Sora7Zzzz10Sora6Zzzz53CakmZzzz18Cakm8Z" ++
    "zzz39Mahj9Zzzz96ShrdZzzz20Sinh11Zzzz18KhojZzzz47Khoj62Zzzz7MultZzzzMultZzzz4MultZzzz15MultZ" ++
    "zzz11Mult6Zzzz59Sind5Zzzz10Sind6Zzzz4GranZzzz8Gran2Zzzz2Gran2Zzzz22GranZzzz7GranZzzz2GranZz" ++
    "zz5GranZzzzZinh9Gran2Zzzz2Gran2Zzzz3Gran2ZzzzGran6ZzzzGran5Zzzz7Gran2Zzzz7Gran3Zzzz5Gran139" ++
    "Zzzz92NewaZzzz5Newa30Zzzz72Tirh8Zzzz10Tirh166Zzzz54Sidd2Zzzz38Sidd34Zzzz69Modi11Zzzz10Modi6" ++
    "Zzzz13Mong19Zzzz58Takr6Zzzz10Takr54Zzzz27Ahom2Zzzz15Ahom4Zzzz23Ahom185Zzzz60Dogr100Zzzz83Wa" ++
    "ra12ZzzzWara7Diak2ZzzzDiak2Zzzz8DiakZzzz2DiakZzzz30DiakZzzz2Diak2Zzzz12Diak9Zzzz10Diak70Zzz" ++
    "z8Nand2Zzzz46Nand2Zzzz11Nand27Zzzz72Zanb8Zzzz83Soyo13Zzzz16Cans57Pauc7Zzzz10Deva246Zzzz9Bhk" ++
    "sZzzz45BhksZzzz14Bhks10Zzzz29Bhks3Zzzz32Marc2Zzzz22MarcZzzz14Marc73Zzzz7GonmZzzz2GonmZzzz44" ++
    "Gonm3ZzzzGonmZzzz2GonmZzzz9Gonm8Zzzz10Gonm6Zzzz6GongZzzz2GongZzzz37GongZzzz2GongZzzz6Gong7Z" ++
    "zzz10Gong310Zzzz25Maka7Zzzz17KawiZzzz41Kawi3Zzzz28Kawi86ZzzzLisu15Zzzz50Taml13ZzzzTaml922Xs" ++
    "ux102Zzzz111XsuxZzzz5Xsux11Zzzz196Xsux2636Zzzz99Cpmn13Zzzz1110Egyp4010Zzzz583Hluw8633Zzzz56" ++
    "9Bamu7Zzzz31MrooZzzz10Mroo4Zzzz2Mroo79TnsaZzzz10Tnsa6Zzzz30Bass2Zzzz6Bass10Zzzz70Hmng10Zzzz" ++
    "10HmngZzzz7HmngZzzz21Hmng5Zzzz19Hmng688Zzzz91Medf101Zzzz75Plrd4Zzzz57Plrd7Zzzz17Plrd64ZzzzT" ++
    "angNshu2HaniKits11Zzzz2Hani14Zzzz6136Tang8Zzzz768Tang470Kits42Zzzz9Tang8935Zzzz4KanaZzzz7Ka" ++
    "naZzzz2KanaZzzzKana287Hira3Kana15ZzzzHira29Zzzz3Hira2ZzzzKana14Zzzz4Kana8Zzzz396Nshu2308Zzz" ++
    "z107Dupl5Zzzz13Dupl3Zzzz9Dupl7Zzzz10Dupl2Zzzz4Dupl4Zyyy4700Zzzz46Zinh2Zzzz23Zinh9Zzzz116Zyy" ++
    "y60Zzzz246Zyyy10Zzzz39Zyyy2Zzzz62Zyyy3Zinh17Zyyy8Zinh2Zyyy7Zinh30Zyyy4Zinh61Zyyy21Zzzz70Gre" ++
    "k122Zzzz20Zyyy12Zzzz20Zyyy12Zzzz87Zyyy9Zzzz25Zyyy135Zzzz85ZyyyZzzz71ZyyyZzzz2Zyyy2ZzzzZyyy2" ++
    "Zzzz2Zyyy2Zzzz4ZyyyZzzz12ZyyyZzzzZyyyZzzz7ZyyyZzzz65ZyyyZzzz4Zyyy2Zzzz8ZyyyZzzz7ZyyyZzzz28Z" ++
    "yyyZzzz4ZyyyZzzz5ZyyyZzzzZyyy3Zzzz7ZyyyZzzz340Zyyy2Zzzz292Zyyy2Zzzz50Zyyy652Sgnw15Zzzz5Sgnw" ++
    "Zzzz15Sgnw1104Zzzz31Latn6Zzzz6Latn213Zzzz7GlagZzzz17Glag2Zzzz7GlagZzzz2GlagZzzz5Glag5Zzzz62" ++
    "Cyrl33ZzzzCyrl112Zzzz45Hmnp3Zzzz14Hmnp2Zzzz10Hmnp4Zzzz2Hmnp320Zzzz31Toto17Zzzz58Wcho5ZzzzWc" ++
    "ho464Zzzz42Nagm742Zzzz7EthiZzzz4EthiZzzz2EthiZzzz15EthiZzzz197Mend2Zzzz16Mend41Zzzz76Adlm4Z" ++
    "zzz10Adlm4Zzzz2Adlm785Zzzz68Zyyy76Zzzz61Zyyy194Zzzz4ArabZzzz27ArabZzzz2ArabZzzzArab2ZzzzAra" ++
    "bZzzz10ArabZzzz4ArabZzzzArabZzzzArab6ZzzzArab4ZzzzArabZzzzArabZzzzArabZzzz3ArabZzzz2ArabZzz" ++
    "zArab2ZzzzArabZzzzArabZzzzArabZzzzArabZzzzArabZzzz2ArabZzzzArab2Zzzz4ArabZzzz7ArabZzzz4Arab" ++
    "Zzzz4ArabZzzzArabZzzz10ArabZzzz17Arab5Zzzz3ArabZzzz5ArabZzzz17Arab52Zzzz2Arab270Zzzz44Zyyy4" ++
    "Zzzz100Zyyy12Zzzz15Zyyy2Zzzz15ZyyyZzzz15ZyyyZzzz37Zyyy10Zzzz174Zyyy56Zzzz26ZyyyHira2Zyyy13Z" ++
    "zzz44Zyyy4Zzzz9Zyyy7Zzzz2Zyyy14Zzzz6Zyyy154Zzzz984Zyyy4Zzzz17Zyyy3Zzzz13Zyyy3Zzzz119Zyyy4Zz" ++
    "zz95Zyyy6Zzzz12Zyyy4ZzzzZyyy15Zzzz12Zyyy4Zzzz56Zyyy8Zzzz10Zyyy6Zzzz40Zyyy8Zzzz30Zyyy2Zzzz2Z" ++
    "yyy78Zzzz340Zyyy12Zzzz14Zyyy2Zzzz13Zyyy3Zzzz9Zyyy7Zzzz46ZyyyZzzz7Zyyy8Zzzz14Zyyy4Zzzz9Zyyy7" ++
    "Zzzz9Zyyy7Zzzz147ZyyyZzzz55Zyyy37Zzzz10Zyyy1030Zzzz42720Hani32Zzzz4154Hani6Zzzz222Hani2Zzzz" ++
    "5762Hani14Zzzz7473Hani3103Zzzz542Hani1506Zzzz4939Hani5Zzzz4192Hani711761ZzzzZyyy30Zzzz96Zyy" ++
    "y128Zzzz240Zinh196112Zzzz")

/-- The first code point of each run with the short name of its script. -/
def starts : Array (Nat × String) :=
  ((Category.cut 4 0 0 runs.length runs.toList).map fun (n, mark) =>
    (n, String.ofList (mark.map Char.toLower))).toArray

/-- The short name of the script of a code point. -/
def ofCode (n : Nat) : String := (Category.lastAtOrBefore starts n 0 starts.size 40).getD "zzzz"

/-- The short name of the script with the given short or long name in lower case. -/
def named? (name : String) : Option String :=
  if name = "qaac" then some "copt" else if name = "qaai" then some "zinh"
  else (names.find? fun p => p.1 = name ∨ p.2 = name).map (·.1)

end CatalogRules.Text.Script
