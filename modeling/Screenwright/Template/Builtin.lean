import Screenwright.Template.Render

namespace Screenwright.Template
open Piece

def screenPage : List Piece := [
  plain "import 'package:flutter/material.dart';\n\nclass ",
  field "class_name",
  plain " extends StatelessWidget \x7b\n  const ",
  field "class_name",
  plain "(\x7bsuper.key\x7d);

  @override
  Widget build(BuildContext context) \x7b
    return Scaffold(
      body: SafeArea(
        child: Padding(
          padding: const EdgeInsets.all(16),
          child: ",
  field "body",
  plain ",
        ),
      ),
    );
  \x7d
\x7d
"]

/-- The column at which a page places its widget. -/
def bodyColumn : Nat := 10

def mainFile : List Piece := [
  plain "import 'package:flutter/material.dart';\n",
  field "imports",
  plain "

void main() \x7b
  runApp(const MyApp());
\x7d

class MyApp extends StatelessWidget \x7b
  const MyApp(\x7bsuper.key\x7d);

  @override
  Widget build(BuildContext context) \x7b
    return MaterialApp(
      title: ",
  call "dart_string" "title",
  plain ",
      debugShowCheckedModeBanner: false,
      home: const ",
  field "home_class",
  plain "(),
      routes: \x7b
",
  field "routes",
  plain "
      \x7d,
    );
  \x7d
\x7d
"]

def manifest : List Piece := [
  plain "name: ",
  call "package_name" "title",
  plain "
description: \"Flutter app generated by fluttergen.\"
publish_to: 'none'
version: 1.0.0+1

environment:
  sdk: '>=3.0.0 <4.0.0'

dependencies:
  flutter:
    sdk: flutter
  cupertino_icons: ^1.0.2

dev_dependencies:
  flutter_test:
    sdk: flutter
  flutter_lints: ^3.0.0

flutter:
  uses-material-design: true
"]

def analysisOptions : List Piece := [plain "include: package:flutter_lints/flutter.yaml\n"]

def ignoreFile : List Piece := [plain ".dart_tool/
.packages
.pub-cache/
.pub/
build/
.flutter-plugins
.flutter-plugins-dependencies
.idea/
*.iml
.DS_Store
"]

def readme : List Piece := [
  plain "# ",
  field "title",
  plain "

Generated by fluttergen.

Create the platform folders, then run the app:

```
flutter create .
flutter pub get
flutter run
```
"]

/-- The files of an empty project, under their paths. -/
def skeletonFiles : List (String × List Piece) := [
  ("pubspec.yaml", manifest),
  ("analysis_options.yaml", analysisOptions),
  (".gitignore", ignoreFile),
  ("README.md", readme)]

def builtin : Library :=
  .ofList (("screen", screenPage) :: ("main", mainFile) :: skeletonFiles)

end Screenwright.Template
